import XToolkits.Lib.Memory
import XToolkits.Lib.WrapLayout

set_option autoImplicit false

/-! # The end of a stream in a cyclic area

A cyclic area of `T` cells into which a stream is written holds the last cells of the stream, the
cell at position `v` of the stream at address `v % T` (`Window`). Dropping old cells costs nothing
(`Window.shrink`); appending and reading go in one block or, across the end of the area, in two. -/

namespace XToolkits

variable {α : Type} {T k : Nat} {m : Mem α} {stream : List α}

/-- Positions less than a turn apart have different addresses. -/
theorem mod_ne_of_lt {T a b : Nat} (hab : a < b) (hba : b < a + T) : a % T ≠ b % T := by
  have hlt := Nat.mod_lt a (show 0 < T by omega)
  have hdisj := offsets_disjoint (T := T) (n := 1) (show a + 1 ≤ b from hab) (by omega) (by omega)
    Nat.one_pos
  omega

/-- The last `k` cells of the stream lie at their addresses in the area. -/
structure Window (T : Nat) (m : Mem α) (stream : List α) (k : Nat) : Prop where
  le_area : k ≤ T
  le_stream : k ≤ stream.length
  cells : ∀ v, stream.length ≤ v + k → v < stream.length → stream[v]? = some (m ↑(v % T))

theorem Window.empty (T : Nat) (m : Mem α) : Window T m [] 0 :=
  ⟨Nat.zero_le _, Nat.zero_le _, by simp⟩

/-- The cells of the stream that are no longer of interest may be dropped. -/
theorem Window.shrink (h : Window T m stream k) {k' : Nat} (hk : k' ≤ k) :
    Window T m stream k' :=
  ⟨Nat.le_trans hk h.le_area, Nat.le_trans hk h.le_stream, fun v hv => h.cells v (by omega)⟩

/-! ## Appending -/

/-- Appending a block that fits before the end of the area. -/
theorem Window.append (h : Window T m stream k) (bs : List α) (hfree : k + bs.length ≤ T)
    (hfits : stream.length % T + bs.length ≤ T) :
    Window T (m.write ↑(stream.length % T) bs) (stream ++ bs) (k + bs.length) := by
  refine ⟨hfree, ?_, fun v hv hlt => ?_⟩
  · have := h.le_stream
    rw [List.length_append]
    omega
  · rw [List.length_append] at hv hlt
    by_cases hold : v < stream.length
    · -- an old cell of the window is no cell of the block
      have hmod := Nat.mod_lt v (show 0 < T by have := h.le_area; omega)
      have hdisj := offsets_disjoint (show v + 1 ≤ stream.length from hold)
        (show stream.length + bs.length ≤ v + T by omega) (by omega) Nat.one_pos
      rw [List.getElem?_append_left hold, h.cells v (by omega) hold,
        Mem.write_apply_outside _ _ _ _ (by omega)]
    · obtain ⟨i, rfl⟩ := Nat.exists_eq_add_of_le (Nat.le_of_not_lt hold)
      have hi : i < bs.length := by omega
      have hmod : (stream.length + i) % T = stream.length % T + i := by
        rw [add_mod_of_le (by omega), if_neg (by omega)]
      rw [List.getElem?_append_right (Nat.le_of_not_lt hold), Nat.add_sub_cancel_left, hmod,
        Int.natCast_add, Mem.write_apply_inside _ _ _ _ hi, List.getElem?_eq_getElem hi]

/-- Appending a block across the end of the area. -/
theorem Window.append_wrap (h : Window T m stream k) (hT : 0 < T) (bs : List α)
    (hfree : k + bs.length ≤ T) (hwrap : T < stream.length % T + bs.length) :
    Window T ((m.write ↑(stream.length % T) (bs.take (T - stream.length % T))).write 0
      (bs.drop (T - stream.length % T))) (stream ++ bs) (k + bs.length) := by
  have hlt := Nat.mod_lt stream.length hT
  have htake : (bs.take (T - stream.length % T)).length = T - stream.length % T := by
    rw [List.length_take]
    omega
  have hdrop : (bs.drop (T - stream.length % T)).length = bs.length - (T - stream.length % T) :=
    List.length_drop
  have hhead := h.append (bs.take (T - stream.length % T)) (by omega) (by omega)
  -- the first block ends at the end of the area, so the second one starts at address `0`
  have hzero : (stream ++ bs.take (T - stream.length % T)).length % T = 0 := by
    rw [List.length_append, add_mod_of_le (by omega), if_pos (by omega)]
  have hboth := hhead.append (bs.drop (T - stream.length % T)) (by omega) (by omega)
  rw [hzero, List.append_assoc, List.take_append_drop] at hboth
  rwa [show k + bs.length = k + (bs.take (T - stream.length % T)).length +
    (bs.drop (T - stream.length % T)).length by omega]

/-! ## Reading -/

/-- Reading a part of the window that does not go across the end of the area. -/
theorem Window.read (h : Window T m stream k) {v n : Nat} (hv : stream.length ≤ v + k)
    (hn : v + n ≤ stream.length) (hfits : v % T + n ≤ T) :
    m.read ↑(v % T) n = (stream.drop v).take n := by
  refine List.ext_getElem? fun i => ?_
  by_cases hi : i < n
  · rw [Mem.getElem?_read _ _ _ _ hi, List.getElem?_take_of_lt hi, List.getElem?_drop,
      h.cells (v + i) (by omega) (by omega), add_mod_of_le (by omega), if_neg (by omega),
      Int.natCast_add]
  · rw [List.getElem?_eq_none (by rw [Mem.length_read]; omega),
      List.getElem?_eq_none (by rw [List.length_take]; omega)]

/-- Reading a part of the window across the end of the area. -/
theorem Window.read_wrap (h : Window T m stream k) {v n : Nat} (hv : stream.length ≤ v + k)
    (hn : v + n ≤ stream.length) (hT : 0 < T) (hnT : n ≤ T)
    (hwrap : T < v % T + n) :
    m.read ↑(v % T) (T - v % T) ++ m.read 0 (n - (T - v % T)) = (stream.drop v).take n := by
  have hlt := Nat.mod_lt v hT
  have hhead := h.read (v := v) (n := T - v % T) hv (by omega) (by omega)
  have hzero : (v + (T - v % T)) % T = 0 := by
    rw [add_mod_of_le (by omega), if_pos (by omega)]
  have htail := h.read (v := v + (T - v % T)) (n := n - (T - v % T)) (by omega) (by omega)
    (by omega)
  rw [hzero] at htail
  rw [hhead, show (0 : Int) = ((0 : Nat) : Int) from rfl, htail, ← List.drop_drop]
  obtain ⟨d, hd⟩ := Nat.exists_eq_add_of_le (show T - v % T ≤ n by omega)
  rw [hd, Nat.add_sub_cancel_left, List.take_add]

end XToolkits
