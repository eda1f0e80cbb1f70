import XToolkits.Json.Buffered

set_option autoImplicit false

/-! # Taking the white space out of a text: `cJSON_Minify`

The text is rewritten in place: `into` follows `json` through the same memory. The nested loops of the
source are one loop with a mode; a round reads at `json` and goes on in the mode of the loop that the
source is in then. A result of `none` is an access outside of the memory.

A JSON text with white space and comments between its tokens keeps its tokens and nothing else, so it
has the value that it had. -/

namespace XToolkits.Json

/-- The loop that `cJSON_Minify` is in: the outer one, or one of those in its branches. -/
inductive Mode where
  | text
  | line
  | block
  | string
  deriving DecidableEq

/-- The memory from the text on, with the two pointers into it. -/
structure Minify where
  mem : List UInt8
  json : Nat
  into : Nat
  mode : Mode

namespace Minify

/-- `json+=n`. -/
def skip (n : Nat) (s : Minify) : Minify := { s with json := s.json + n }

def enter (mode : Mode) (s : Minify) : Minify := { s with mode := mode }

/-- `*into++=*json++`. -/
def copy (s : Minify) : Option Minify := do
  let b ← s.mem[s.json]?
  if s.into < s.mem.length then
    some { s with mem := s.mem.set s.into b, json := s.json + 1, into := s.into + 1 }
  else none

/-- A round: the next state, and whether the outer loop goes on. -/
def round (s : Minify) : Option (Minify × Bool) := do
  let b ← s.mem[s.json]?
  match s.mode with
  | .text =>
      if b = 0 then some (s, false)
      else if b = 32 ∨ b = 9 ∨ b = 13 ∨ b = 10 then some (s.skip 1, true)
      else if b = 47 then do
        let c ← s.mem[s.json + 1]?
        if c = 47 then some (s.enter .line, true)
        else if c = 42 then some (s.enter .block, true)
        else (s.copy).map fun s => (s, true)
      else if b = 34 then (s.copy).map fun s => (s.enter .string, true)
      else (s.copy).map fun s => (s, true)
  | .line => if b = 0 ∨ b = 10 then some (s.enter .text, true) else some (s.skip 1, true)
  | .block =>
      if b = 0 then some ((s.skip 2).enter .text, true)
      else if b = 42 then do
        let c ← s.mem[s.json + 1]?
        if c = 47 then some ((s.skip 2).enter .text, true) else some (s.skip 1, true)
      else some (s.skip 1, true)
  | .string =>
      if b = 0 ∨ b = 34 then (s.copy).map fun s => (s.enter .text, true)
      else if b = 92 then (s.copy).bind fun s => (s.copy).map fun s => (s, true)
      else (s.copy).map fun s => (s, true)

/-- The loop, and `*into=0` behind it. -/
def loop : Nat → Minify → Option (List UInt8)
  | 0, _ => none
  | fuel + 1, s => do
      let (s, more) ← s.round
      if more then loop fuel s
      else if s.into < s.mem.length then some (s.mem.set s.into 0) else none

end Minify

/-- `cJSON_Minify`: the memory after it. -/
def cJSONMinify (mem : List UInt8) : Option (List UInt8) :=
  Minify.loop (3 * mem.length + 1) ⟨mem, 0, 0, .text⟩

/-! ## What the memory holds -/

namespace Minify

variable {s s' : Minify} {out out' rest t u w : List UInt8} {b : UInt8} {k k' : Nat} {mode : Mode}

/-- The text that is written, the text that remains, and the mode. -/
def Holds (s : Minify) (mode : Mode) (out rest : List UInt8) : Prop :=
  s.mode = mode ∧ ∃ behind, s.mem = out ++ behind ++ rest ∧ s.into = out.length ∧
    s.json = out.length + behind.length

theorem Holds.getElem? (h : s.Holds mode out rest) (i : Nat) : s.mem[s.json + i]? = rest[i]? := by
  obtain ⟨-, behind, hmem, -, hjson⟩ := h
  have hlen : (out ++ behind).length = s.json := by rw [List.length_append, hjson]
  rw [hmem, ← hlen, List.getElem?_append_right (Nat.le_add_right _ _), Nat.add_sub_cancel_left]

theorem Holds.head (h : s.Holds mode out (b :: rest)) : s.mem[s.json]? = some b := h.getElem? 0

theorem Holds.skip (h : s.Holds mode out (u ++ rest)) : (s.skip u.length).Holds mode out rest := by
  obtain ⟨hmode, behind, hmem, hinto, hjson⟩ := h
  refine ⟨hmode, behind ++ u, ?_, hinto, ?_⟩
  · show s.mem = _
    rw [hmem]
    simp
  · show s.json + u.length = _
    rw [hjson, List.length_append]
    omega

theorem Holds.enter (h : s.Holds mode out rest) (mode' : Mode) : (s.enter mode').Holds mode' out rest :=
  ⟨rfl, h.2⟩

/-- The byte is written over one that was read. -/
theorem Holds.copy (h : s.Holds mode out (b :: rest)) :
    ∃ s', s.copy = some s' ∧ s'.Holds mode (out ++ [b]) rest := by
  have hhead := h.head
  obtain ⟨hmode, behind, hmem, hinto, hjson⟩ := h
  have hlt : s.into < s.mem.length := by
    rw [hmem, hinto]
    simp
  have hcopy : s.copy = some { s with mem := s.mem.set s.into b, json := s.json + 1, into := s.into + 1 } := by
    rw [Minify.copy, hhead, Option.bind_eq_bind, Option.bind_some, if_pos hlt]
  refine ⟨_, hcopy, hmode, ?_⟩
  cases behind with
  | nil => exact ⟨[], by simp [hmem, hinto], by simp [hinto], by simp [hjson]⟩
  | cons c behind =>
      refine ⟨behind ++ [b], by simp [hmem, hinto], by simp [hinto], ?_⟩
      simp [hjson]
      omega

/-! ## The size of the memory -/

theorem length_copy (h : s.copy = some s') : s'.mem.length = s.mem.length := by
  obtain ⟨b, -, h⟩ := Option.bind_eq_some_iff.1 h
  split at h
  · obtain rfl := Option.some_inj.1 h
    exact List.length_set
  · cases h

theorem length_map_copy {f : Minify → Minify × Bool} (hf : ∀ s, (f s).1.mem = s.mem)
    {r : Minify × Bool} (h : s.copy.map f = some r) : r.1.mem.length = s.mem.length := by
  obtain ⟨s', hcopy, rfl⟩ := Option.map_eq_some_iff.1 h
  rw [hf, length_copy hcopy]

/-- A round writes into the memory that is there. -/
theorem length_round {r : Minify × Bool} (h : s.round = some r) : r.1.mem.length = s.mem.length := by
  obtain ⟨b, -, h⟩ := Option.bind_eq_some_iff.1 h
  have hsome : ∀ {s' : Minify} {more : Bool}, some (s', more) = some r → s'.mem = s.mem →
      r.1.mem.length = s.mem.length := by
    intro s' more h hmem
    obtain rfl := Option.some_inj.1 h
    rw [hmem]
  split at h
  · split at h
    · exact hsome h rfl
    split at h
    · exact hsome h rfl
    split at h
    · obtain ⟨c, -, h⟩ := Option.bind_eq_some_iff.1 h
      split at h
      · exact hsome h rfl
      split at h
      · exact hsome h rfl
      · exact length_map_copy (fun _ => rfl) h
    split at h
    · exact length_map_copy (fun _ => rfl) h
    · exact length_map_copy (fun _ => rfl) h
  · split at h <;> exact hsome h rfl
  · split at h
    · exact hsome h rfl
    split at h
    · obtain ⟨c, -, h⟩ := Option.bind_eq_some_iff.1 h
      split at h <;> exact hsome h rfl
    · exact hsome h rfl
  · split at h
    · exact length_map_copy (fun _ => rfl) h
    split at h
    · obtain ⟨s₁, hcopy, h⟩ := Option.bind_eq_some_iff.1 h
      rw [length_map_copy (fun _ => rfl) h, length_copy hcopy]
    · exact length_map_copy (fun _ => rfl) h

theorem length_loop {n : Nat} {mem : List UInt8} (h : loop n s = some mem) :
    mem.length = s.mem.length := by
  induction n generalizing s with
  | zero => cases h
  | succ n ih =>
      obtain ⟨⟨s', more⟩, hround, h⟩ := Option.bind_eq_some_iff.1 h
      have hlength := length_round hround
      dsimp only at h hlength
      split at h
      · rw [ih h, hlength]
      split at h
      · obtain rfl := Option.some_inj.1 h
        rw [List.length_set, hlength]
      · cases h

/-! ## Runs of the loop -/

/-- `k` rounds lead from `s` to `s'`. -/
def Runs (k : Nat) (s s' : Minify) : Prop := ∀ n, loop (n + k) s = loop n s'

theorem Runs.refl (s : Minify) : Runs 0 s s := fun _ => rfl

theorem Runs.trans {s'' : Minify} (h : Runs k s s') (h' : Runs k' s' s'') : Runs (k + k') s s'' := by
  intro n
  rw [← Nat.add_assoc, Nat.add_right_comm, h, h']

theorem Runs.one (h : s.round = some (s', true)) : Runs 1 s s' := by
  intro n
  rw [loop, h, Option.bind_eq_bind, Option.bind_some]
  rfl

/-- In front of anything, `t` is replaced by `u`. Each of its bytes takes three rounds at most. -/
def Becomes (mode : Mode) (t : List UInt8) (mode' : Mode) (u : List UInt8) : Prop :=
  ∀ (s : Minify) (out rest : List UInt8), s.Holds mode out (t ++ rest) →
    ∃ s' k, Runs k s s' ∧ k ≤ 3 * t.length ∧ s'.Holds mode' (out ++ u) rest

variable {mode' mode'' : Mode} {t' u' : List UInt8}

theorem Becomes.nil (mode : Mode) : Becomes mode [] mode [] := by
  intro s out rest h
  refine ⟨s, 0, Runs.refl s, Nat.zero_le _, ?_⟩
  rwa [List.append_nil]

theorem Becomes.append (h : Becomes mode t mode' u) (h' : Becomes mode' t' mode'' u') :
    Becomes mode (t ++ t') mode'' (u ++ u') := by
  intro s out rest hs
  rw [List.append_assoc] at hs
  obtain ⟨s₁, k₁, hrun₁, hk₁, hs₁⟩ := h s out (t' ++ rest) hs
  obtain ⟨s₂, k₂, hrun₂, hk₂, hs₂⟩ := h' s₁ (out ++ u) rest hs₁
  refine ⟨s₂, k₁ + k₂, hrun₁.trans hrun₂, ?_, ?_⟩
  · rw [List.length_append]
    omega
  · rwa [← List.append_assoc]

/-- A round that copies the byte at `json`. -/
theorem becomes_copy {f : Minify → Minify}
    (hround : ∀ s : Minify, s.mode = mode → s.mem[s.json]? = some b →
      s.round = s.copy.map fun s => (f s, true))
    (hf : ∀ (s : Minify) (out rest : List UInt8), s.Holds mode out rest → (f s).Holds mode' out rest) :
    Becomes mode [b] mode' [b] := by
  intro s out rest hs
  obtain ⟨s', hcopy, hs'⟩ := Holds.copy hs
  refine ⟨f s', 1, Runs.one ?_, by show 1 ≤ 3; decide, hf s' _ _ hs'⟩
  rw [hround s hs.1 (Holds.head hs), hcopy, Option.map_some]

/-- A round that skips it. -/
theorem becomes_skip
    (hround : ∀ s : Minify, s.mode = mode → s.mem[s.json]? = some b → s.round = some (s.skip 1, true)) :
    Becomes mode [b] mode [] := by
  intro s out rest hs
  refine ⟨s.skip 1, 1, Runs.one (hround s hs.1 (Holds.head hs)), by show 1 ≤ 3; decide, ?_⟩
  rw [List.append_nil]
  exact Holds.skip (u := [b]) hs

/-! ## Tokens -/

/-- A byte that `cJSON_Minify` copies outside of strings. -/
def IsToken (b : UInt8) : Prop := b ≠ 0 ∧ ¬ (b = 32 ∨ b = 9 ∨ b = 13 ∨ b = 10) ∧ b ≠ 47 ∧ b ≠ 34

instance (b : UInt8) : Decidable (IsToken b) := inferInstanceAs (Decidable (_ ∧ _ ∧ _ ∧ _))

theorem becomes_token (h : IsToken b) : Becomes .text [b] .text [b] := by
  refine becomes_copy (f := id) (fun s hmode hhead => ?_) fun _ _ _ hs => hs
  simp only [round, hhead, hmode, Option.bind_eq_bind, Option.bind_some, if_neg h.1, if_neg h.2.1,
    if_neg h.2.2.1, if_neg h.2.2.2]
  rfl

theorem becomes_tokens (h : ∀ b ∈ t, IsToken b) : Becomes .text t .text t := by
  induction t with
  | nil => exact Becomes.nil .text
  | cons b t ih =>
      have hb := becomes_token (h b (List.mem_cons_self ..))
      exact hb.append (ih fun c hc => h c (List.mem_cons_of_mem b hc))

/-! ## Strings -/

theorem becomes_open : Becomes .text [34] .string [34] := by
  refine becomes_copy (f := enter .string) (fun s hmode hhead => ?_) fun _ _ _ hs => hs.enter .string
  simp only [round, hhead, hmode, Option.bind_eq_bind, Option.bind_some]
  rfl

theorem becomes_close : Becomes .string [34] .text [34] := by
  refine becomes_copy (f := enter .text) (fun s hmode hhead => ?_) fun _ _ _ hs => hs.enter .text
  simp only [round, hhead, hmode, Option.bind_eq_bind, Option.bind_some]
  rfl

theorem becomes_plain (hb : ¬ (b = 0 ∨ b = 34)) (hne : b ≠ 92) : Becomes .string [b] .string [b] := by
  refine becomes_copy (f := id) (fun s hmode hhead => ?_) fun _ _ _ hs => hs
  simp only [round, hhead, hmode, Option.bind_eq_bind, Option.bind_some, if_neg hb, if_neg hne]
  rfl

/-- A backslash is copied with the byte behind it. -/
theorem becomes_escape (c : UInt8) : Becomes .string [92, c] .string [92, c] := by
  intro s out rest hs
  obtain ⟨s₁, hcopy, hs₁⟩ := Holds.copy hs
  obtain ⟨s₂, hcopy', hs₂⟩ := Holds.copy hs₁
  refine ⟨s₂, 1, Runs.one ?_, by show 1 ≤ 6; decide, ?_⟩
  · have hhead := Holds.head hs
    simp only [round, hhead, hs.1, Option.bind_eq_bind, Option.bind_some, hcopy, hcopy']
    rfl
  · rwa [List.append_assoc] at hs₂

theorem becomes_hex4 {n : Nat} (hu : Hex4 n u) : Becomes .string u .string u := by
  obtain ⟨h₀, h₁, h₂, h₃⟩ := hu
  have hdigit : ∀ {b : UInt8} {d : Nat}, hexVal b = some d → Becomes .string [b] .string [b] := by
    intro b d hd
    obtain ⟨hend, hback⟩ := hexVal_ne hd
    exact becomes_plain (fun h => hend h.symm) hback
  exact (hdigit h₀).append ((hdigit h₁).append ((hdigit h₂).append (hdigit h₃)))

theorem becomes_escaped {str e : List UInt8} (he : Escaped str e) : Becomes .string e .string e := by
  induction he with
  | nil => exact Becomes.nil .string
  | plain hb _ ih => exact (becomes_plain (fun h => h.elim hb.1 hb.2.1) hb.2.2).append ih
  | escape _ _ ih => exact (becomes_escape _).append ih
  | unicode _ hu _ ih =>
      have hboth := ((becomes_escape 117).append (becomes_hex4 hu)).append ih
      simpa only [List.cons_append, List.nil_append] using hboth
  | surrogates _ hu hv _ ih =>
      have hhigh := (becomes_escape 117).append (becomes_hex4 hu)
      have hlow := (becomes_escape 117).append (becomes_hex4 hv)
      have hboth := hhigh.append (hlow.append ih)
      simpa only [List.cons_append, List.nil_append] using hboth

/-- **A string is copied as it is.** -/
theorem becomes_string {str e : List UInt8} (he : Escaped str e) :
    Becomes .text (34 :: e ++ [34]) .text (34 :: e ++ [34]) :=
  (becomes_open.append (becomes_escaped he)).append becomes_close

/-! ## Gaps -/

theorem becomes_blank (hb : b = 32 ∨ b = 9 ∨ b = 13 ∨ b = 10) : Becomes .text [b] .text [] := by
  refine becomes_skip fun s hmode hhead => ?_
  have hzero : b ≠ 0 := by rcases hb with rfl | rfl | rfl | rfl <;> decide
  simp only [round, hhead, hmode, Option.bind_eq_bind, Option.bind_some, if_neg hzero, if_pos hb]

/-- The rest of a line is skipped, a byte in each round. -/
theorem skip_line (h : ∀ c ∈ t, c ≠ 0 ∧ c ≠ 10) (hs : s.Holds .line out (t ++ rest)) :
    ∃ s', Runs t.length s s' ∧ s'.Holds .line out rest := by
  induction t generalizing s with
  | nil => exact ⟨s, Runs.refl s, hs⟩
  | cons c t ih =>
      obtain ⟨hzero, hline⟩ := h c (List.mem_cons_self ..)
      have hround : s.round = some (s.skip 1, true) := by
        simp only [round, Holds.head hs, hs.1, Option.bind_eq_bind, Option.bind_some,
          if_neg (not_or_intro hzero hline)]
      obtain ⟨s', hrun, hs'⟩ := ih (fun c' hc' => h c' (List.mem_cons_of_mem c hc'))
        (Holds.skip (u := [c]) hs)
      refine ⟨s', ?_, hs'⟩
      rw [List.length_cons, Nat.add_comm]
      exact (Runs.one hround).trans hrun

/-- `//` and the rest of the line. -/
theorem becomes_lineComment (h : ∀ c ∈ t, c ≠ 0 ∧ c ≠ 10) : Becomes .text (47 :: 47 :: t) .line [] := by
  intro s out rest hs
  have hslash : ∀ c ∈ 47 :: 47 :: t, c ≠ 0 ∧ c ≠ 10 := by
    intro c hc
    rcases List.mem_cons.1 hc with rfl | hc
    · decide
    rcases List.mem_cons.1 hc with rfl | hc
    · decide
    · exact h c hc
  have henter : s.round = some (s.enter .line, true) := by
    have hnext := Holds.getElem? hs 1
    simp only [round, Holds.head hs, hs.1, hnext, Option.bind_eq_bind, Option.bind_some]
    rfl
  obtain ⟨s₁, hrun, hs₁⟩ := skip_line hslash (hs.enter .line)
  refine ⟨s₁, _, (Runs.one henter).trans hrun, ?_, ?_⟩
  · simp only [List.length_cons]
    omega
  · rwa [List.append_nil]

/-- The end of a line comment leaves its loop. -/
theorem leave_line (hb : b = 0 ∨ b = 10) (hs : s.Holds .line out (b :: rest)) :
    Runs 1 s (s.enter .text) := by
  refine Runs.one ?_
  simp only [round, Holds.head hs, hs.1, Option.bind_eq_bind, Option.bind_some, if_pos hb]

theorem becomes_newline : Becomes .line [10] .text [] := by
  intro s out rest hs
  have hs₁ := hs.enter .text
  have hround : (s.enter .text).round = some ((s.enter .text).skip 1, true) := by
    simp only [round, Holds.head hs₁, hs₁.1, Option.bind_eq_bind, Option.bind_some]
    rfl
  refine ⟨(s.enter .text).skip 1, 1 + 1, (leave_line (Or.inr rfl) hs).trans (Runs.one hround), ?_, ?_⟩
  · show 2 ≤ 3
    decide
  · rw [List.append_nil]
    exact Holds.skip (u := [10]) hs₁

/-- A comment is skipped up to the first `*/`. -/
theorem becomes_block (hzero : 0 ∉ t) (hend : ¬ [42, 47] <:+: t ++ [42]) :
    Becomes .block (t ++ [42, 47]) .text [] := by
  induction t with
  | nil =>
      intro s out rest hs
      have hnext := Holds.getElem? hs 1
      refine ⟨(s.skip 2).enter .text, 1, Runs.one ?_, by show 1 ≤ 6; decide, ?_⟩
      · simp only [round, Holds.head hs, hs.1, hnext, Option.bind_eq_bind, Option.bind_some]
        rfl
      · rw [List.append_nil]
        exact (Holds.skip (u := [42, 47]) hs).enter .text
  | cons c t ih =>
      obtain ⟨hc, hzero⟩ : 0 ≠ c ∧ 0 ∉ t := by
        rwa [List.mem_cons, not_or] at hzero
      have hrest := ih hzero fun h => hend (h.trans ⟨[c], [], by simp⟩)
      intro s out rest hs
      have hround : s.round = some (s.skip 1, true) := by
        simp only [round, Holds.head hs, hs.1, Option.bind_eq_bind, Option.bind_some, if_neg hc.symm]
        split
        · next hstar =>
            obtain ⟨d, hd, hne⟩ : ∃ d, (t ++ [42, 47] ++ rest)[0]? = some d ∧ d ≠ 47 := by
              obtain _ | ⟨d, t⟩ := t
              · exact ⟨42, rfl, by decide⟩
              · refine ⟨d, rfl, ?_⟩
                rintro rfl
                exact hend ⟨[], t ++ [42], by rw [hstar]; simp⟩
            have hnext := Holds.getElem? hs 1
            rw [hnext]
            show (((t ++ [42, 47] ++ rest)[0]?).bind fun c => _) = _
            rw [hd, Option.bind_some, if_neg hne]
        · rfl
      obtain ⟨s', k, hrun, hk, hs'⟩ := hrest (s.skip 1) out rest (Holds.skip (u := [c]) hs)
      refine ⟨s', 1 + k, (Runs.one hround).trans hrun, ?_, hs'⟩
      simp only [List.length_append, List.length_cons, List.length_nil] at hk ⊢
      omega

theorem becomes_blockComment (hzero : 0 ∉ t) (hend : ¬ [42, 47] <:+: 42 :: t ++ [42]) :
    Becomes .text (47 :: 42 :: t ++ [42, 47]) .text [] := by
  intro s out rest hs
  have henter : s.round = some (s.enter .block, true) := by
    have hnext := Holds.getElem? hs 1
    simp only [round, Holds.head hs, hs.1, hnext, Option.bind_eq_bind, Option.bind_some]
    rfl
  have hs₁ := hs.enter .block
  have hslash : (s.enter .block).round = some ((s.enter .block).skip 1, true) := by
    simp only [round, Holds.head hs₁, hs₁.1, Option.bind_eq_bind, Option.bind_some]
    rfl
  have hblock := becomes_block (t := 42 :: t) (zero_notMem_cons (by decide) hzero) hend
  obtain ⟨s', k, hrun, hk, hs'⟩ := hblock _ out rest (Holds.skip (u := [47]) hs₁)
  refine ⟨s', 1 + (1 + k), (Runs.one henter).trans ((Runs.one hslash).trans hrun), ?_, hs'⟩
  simp only [List.length_append, List.length_cons, List.length_nil] at hk ⊢
  omega

end Minify

/-! ## Texts with comments -/

/-- A gap with comments. The first `*/` behind the `/` of a comment is its end, even when its star is
    the one that the comment starts with: a comment in `/*` and `*/` does not begin with a slash. -/
inductive Commented : List UInt8 → Prop where
  | nil : Commented []
  | blank {b : UInt8} {w : List UInt8} (hb : b = 32 ∨ b = 9 ∨ b = 13 ∨ b = 10) (h : Commented w) :
      Commented (b :: w)
  | line {c w : List UInt8} (hc : ∀ b ∈ c, b ≠ 0 ∧ b ≠ 10) (h : Commented w) :
      Commented (47 :: 47 :: c ++ [10] ++ w)
  | block {c w : List UInt8} (hzero : 0 ∉ c) (hend : ¬ [42, 47] <:+: 42 :: c ++ [42])
      (h : Commented w) : Commented (47 :: 42 :: c ++ [42, 47] ++ w)

open Minify

variable {p : Part} {v : Value} {read : NumberText → Double} {s w : List UInt8} {mode : Mode}

/-- **A gap leaves nothing.** -/
theorem Commented.becomes (h : Commented w) : Becomes .text w .text [] := by
  induction h with
  | nil => exact Becomes.nil .text
  | blank hb _ ih => exact (becomes_blank hb).append ih
  | line hc _ ih => exact ((becomes_lineComment hc).append becomes_newline).append ih
  | block hzero hend _ ih => exact (becomes_blockComment hzero hend).append ih

/-- No gap. -/
def Tight (w : List UInt8) : Prop := w = []

theorem isToken_text {t : NumberText} (ht : t.Valid) : ∀ b ∈ t.text, IsToken b := by
  have hdigit : ∀ n < 256, IsDigit (UInt8.ofNat n) → IsToken (UInt8.ofNat n) := by
    decide +kernel
  have hmark : ∀ b ∈ [43, 45, 46, 69, 101], IsToken b := List.all_iff_forall_prop.1 (by decide)
  intro b hb
  rcases mem_text ht hb with hb | hb
  · have h := hdigit b.toNat b.toNat_lt
    rw [UInt8.ofNat_toNat] at h
    exact h hb
  · exact hmark b hb

/-- **The tokens of a text stay, and its gaps go.** -/
theorem Renders.becomes (h : Renders Commented read p s) :
    ∃ u, Renders Tight read p u ∧ Becomes .text s .text u := by
  have htoken : ∀ {b : UInt8}, IsToken b → Becomes .text [b] .text [b] := fun h => becomes_token h
  have hopen : IsToken 91 ∧ IsToken 93 ∧ IsToken 123 ∧ IsToken 125 ∧ IsToken 44 ∧ IsToken 58 := by
    decide
  obtain ⟨h91, h93, h123, h125, h44, h58⟩ := hopen
  induction h with
  | null => exact ⟨cstr "null", .null, becomes_tokens (List.all_iff_forall_prop.1 (by decide))⟩
  | bool b =>
      refine ⟨if b then cstr "true" else cstr "false", .bool b, becomes_tokens ?_⟩
      cases b <;> exact List.all_iff_forall_prop.1 (by decide)
  | num ht => exact ⟨_, .num ht, becomes_tokens (isToken_text ht)⟩
  | str he => exact ⟨_, .str he, becomes_string he⟩
  | arrNil hw => exact ⟨91 :: [] ++ [93], .arrNil rfl, ((htoken h91).append hw.becomes).append (htoken h93)⟩
  | arr _ ih =>
      obtain ⟨u, hu, hbecomes⟩ := ih
      exact ⟨91 :: u ++ [93], .arr hu, ((htoken h91).append hbecomes).append (htoken h93)⟩
  | objNil hw =>
      exact ⟨123 :: [] ++ [125], .objNil rfl, ((htoken h123).append hw.becomes).append (htoken h125)⟩
  | obj _ ih =>
      obtain ⟨u, hu, hbecomes⟩ := ih
      exact ⟨123 :: u ++ [125], .obj hu, ((htoken h123).append hbecomes).append (htoken h125)⟩
  | element hw _ hw' ih =>
      obtain ⟨u, hu, hbecomes⟩ := ih
      exact ⟨[] ++ u ++ [], .element rfl hu rfl, (hw.becomes.append hbecomes).append hw'.becomes⟩
  | lastElement _ ih =>
      obtain ⟨u, hu, hbecomes⟩ := ih
      exact ⟨u, .lastElement hu, hbecomes⟩
  | elements _ _ ih ih' =>
      obtain ⟨u, hu, hbecomes⟩ := ih
      obtain ⟨u', hu', hbecomes'⟩ := ih'
      exact ⟨u ++ 44 :: u', .elements hu hu', hbecomes.append ((htoken h44).append hbecomes')⟩
  | member hw he hw' _ ih =>
      obtain ⟨u, hu, hbecomes⟩ := ih
      exact ⟨_, .member (w := []) rfl he rfl hu,
        ((hw.becomes.append (becomes_string he)).append hw'.becomes).append
          ((htoken h58).append hbecomes)⟩
  | lastMember _ ih =>
      obtain ⟨u, hu, hbecomes⟩ := ih
      exact ⟨u, .lastMember hu, hbecomes⟩
  | members _ _ ih ih' =>
      obtain ⟨u, hu, hbecomes⟩ := ih
      obtain ⟨u', hu', hbecomes'⟩ := ih'
      exact ⟨u ++ 44 :: u', .members hu hu', hbecomes.append ((htoken h44).append hbecomes')⟩

/-- A line comment that the `NUL` ends, or nothing. -/
inductive LastLine : List UInt8 → Prop where
  | nil : LastLine []
  | comment {c : List UInt8} (hc : ∀ b ∈ c, b ≠ 0 ∧ b ≠ 10) : LastLine (47 :: 47 :: c)

theorem LastLine.becomes {last : List UInt8} (h : LastLine last) :
    ∃ mode, (mode = .text ∨ mode = .line) ∧ Becomes .text last mode [] := by
  cases h with
  | nil => exact ⟨.text, Or.inl rfl, Becomes.nil .text⟩
  | comment hc => exact ⟨.line, Or.inr rfl, becomes_lineComment hc⟩

/-- At the `NUL` the loop of a line comment is left first. -/
theorem reach_end {s : Minify} {out rest : List UInt8} (hmode : mode = .text ∨ mode = .line)
    (hs : s.Holds mode out (0 :: rest)) :
    ∃ s' k, Runs k s s' ∧ k ≤ 1 ∧ s'.Holds .text out (0 :: rest) := by
  rcases hmode with rfl | rfl
  · exact ⟨s, 0, Runs.refl s, Nat.zero_le 1, hs⟩
  · exact ⟨s.enter .text, 1, leave_line (Or.inl rfl) hs, Nat.le_refl 1, hs.enter .text⟩

/-- What `cJSON_Minify` leaves in the memory of a text: its `NUL` and what is behind it stay. -/
theorem cJSONMinify_of_becomes {u : List UInt8} (hmode : mode = .text ∨ mode = .line)
    (h : Becomes .text s mode u) (junk : List UInt8) :
    ∃ tail, cJSONMinify (s ++ 0 :: junk) = some (u ++ 0 :: tail) ∧ 0 :: junk <:+ 0 :: tail ∧
      u.length + tail.length = s.length + junk.length := by
  have hstart : Holds ⟨s ++ 0 :: junk, 0, 0, .text⟩ .text [] (s ++ 0 :: junk) := ⟨rfl, [], rfl, rfl, rfl⟩
  obtain ⟨s₁, k₁, hrun₁, hk₁, hs₁⟩ := h _ [] (0 :: junk) hstart
  rw [List.nil_append] at hs₁
  obtain ⟨s', k', hrun', hk', hs'⟩ := reach_end hmode hs₁
  have hrun := hrun₁.trans hrun'
  have hround : s'.round = some (s', false) := by
    simp only [Minify.round, Holds.head hs', hs'.1, Option.bind_eq_bind, Option.bind_some]
    rfl
  obtain ⟨-, behind, hmem, hinto, -⟩ := hs'
  have hlt : s'.into < s'.mem.length := by
    rw [hmem, hinto]
    simp
  have hfuel : 3 * (s ++ 0 :: junk).length + 1 =
      3 * (s ++ 0 :: junk).length - (k₁ + k') + 1 + (k₁ + k') := by
    rw [List.length_append, List.length_cons]
    omega
  have hend : cJSONMinify (s ++ 0 :: junk) = some (s'.mem.set s'.into 0) := by
    rw [cJSONMinify, hfuel, hrun, loop, hround]
    exact if_pos hlt
  have htail : ∃ tail, s'.mem.set s'.into 0 = u ++ 0 :: tail ∧ 0 :: junk <:+ 0 :: tail := by
    rw [hmem, hinto]
    cases behind with
    | nil => exact ⟨junk, by simp, List.suffix_rfl⟩
    | cons b behind => exact ⟨behind ++ 0 :: junk, by simp, 0 :: behind, by simp⟩
  obtain ⟨tail, htail, hsuffix⟩ := htail
  rw [htail] at hend
  refine ⟨tail, hend, hsuffix, ?_⟩
  have hlength := length_loop hend
  simp only [List.length_append, List.length_cons] at hlength
  omega

section Printed

variable {item : Fields} {es es' : List CStr} {ms ms' : List (CStr × CStr)}
  {ps ps' : List (Printed × Printed)} {depth depth' : Nat}

theorem becomes_printStringPtr {str : Option CStr} (h : ∀ s ∈ str, 0 ∉ s) :
    Becomes .text (printStringPtr str).text .text (printStringPtr str).text := by
  cases str with
  | none => exact becomes_string .nil
  | some s =>
      rw [printStringPtr_some]
      exact becomes_string (escaped_flatMap (h s rfl))

theorem isToken_null : ∀ b ∈ cstr "null", IsToken b := List.all_iff_forall_prop.1 (by decide)

theorem becomes_printNumber (d : Double) (k : Int) :
    Becomes .text (printNumber d k).text .text (printNumber d k).text := by
  refine becomes_tokens ?_
  rcases printNumber_text d k with ⟨t, ht, htext⟩ | htext
  · rw [htext]
    exact isToken_text ht
  · rw [htext]
    exact isToken_null

theorem becomes_blanks (hw : ∀ b ∈ w, b = 32 ∨ b = 9 ∨ b = 13 ∨ b = 10) : Becomes .text w .text [] := by
  induction w with
  | nil => exact Becomes.nil .text
  | cons b w ih =>
      exact (becomes_blank (hw b (List.mem_cons_self ..))).append
        (ih fun c hc => hw c (List.mem_cons_of_mem b hc))

theorem becomes_tabs (n : Nat) : Becomes .text (tabs n) .text [] := by
  refine becomes_blanks fun b hb => ?_
  rw [List.eq_of_mem_replicate hb]
  decide

theorem becomes_byte (b : UInt8) (hb : b ∈ [91, 93, 123, 125, 44, 58]) : Becomes .text [b] .text [b] := by
  have htoken : ∀ b ∈ [91, 93, 123, 125, 44, 58], IsToken b := List.all_iff_forall_prop.1 (by decide)
  exact becomes_token (htoken b hb)

theorem becomes_joinEntries (h : List.Forall₂ (fun e e' => Becomes .text e .text e') es es') :
    Becomes .text (joinEntries true es) .text (joinEntries false es') := by
  induction h with
  | nil => exact Becomes.nil .text
  | @cons e e' es es' he hes ih =>
      cases hes with
      | nil => exact he
      | @cons e₁ e₁' es es' _ _ =>
          have hcomma := (becomes_byte 44 (by decide)).append (becomes_blank (b := 32) (by decide))
          exact (he.append hcomma).append ih

/-- A name that stays as it is, with a text that is minified. -/
def MemberBecomes (m m' : CStr × CStr) : Prop :=
  m.1 = m'.1 ∧ Becomes .text m.1 .text m.1 ∧ Becomes .text m.2 .text m'.2

theorem becomes_joinMembers (h : List.Forall₂ MemberBecomes ms ms') :
    Becomes .text (joinMembers true depth ms) .text (joinMembers false depth' ms') := by
  induction h with
  | nil => exact Becomes.nil .text
  | @cons m m' ms ms' hm hms ih =>
      obtain ⟨name, entry⟩ := m
      obtain ⟨name', entry'⟩ := m'
      obtain ⟨rfl, hname, hentry⟩ : name = name' ∧ _ ∧ _ := hm
      have hnil : ms = [] ↔ ms' = [] := by
        cases hms <;> simp
      have hcomma : Becomes .text (if ms = [] then [] else [44]) .text (if ms' = [] then [] else [44]) := by
        simp only [hnil]
        split
        · exact Becomes.nil .text
        · exact becomes_byte 44 (by decide)
      have hcolon := (becomes_byte 58 (by decide)).append (becomes_blank (b := 9) (by decide))
      have hline := becomes_blank (b := 10) (by decide)
      have hround := (((((becomes_tabs depth).append hname).append hcolon).append hentry).append
        hcomma).append hline
      exact hround.append ih

/-- The names and texts of a chain in both formats. -/
def PartBecomes (r r' : Printed × Printed) : Prop :=
  MemberBecomes (r.1.text, r.2.text) (r'.1.text, r'.2.text)

theorem becomes_printArray (h : List.Forall₂ PartBecomes ps ps') :
    Becomes .text (printArray true (ps.map Prod.snd)).text .text
      (printArray false (ps'.map Prod.snd)).text := by
  have hentries : List.Forall₂ (fun e e' => Becomes .text e .text e')
      ((ps.map Prod.snd).map Printed.text) ((ps'.map Prod.snd).map Printed.text) := by
    induction h with
    | nil => exact .nil
    | cons hr _ ih => exact .cons hr.2.2 ih
  have hnil : ps.map Prod.snd = [] ↔ ps'.map Prod.snd = [] := by
    cases h <;> simp
  rw [printArray, printArray]
  simp only [hnil]
  split
  · exact (becomes_byte 91 (by decide)).append (becomes_byte 93 (by decide))
  · exact ((becomes_byte 91 (by decide)).append (becomes_joinEntries hentries)).append
      (becomes_byte 93 (by decide))

theorem becomes_printObject (h : List.Forall₂ PartBecomes ps ps') :
    Becomes .text (printObject true depth ps).text .text (printObject false depth' ps').text := by
  have hmembers : List.Forall₂ MemberBecomes (ps.map fun r => (r.1.text, r.2.text))
      (ps'.map fun r => (r.1.text, r.2.text)) := by
    induction h with
    | nil => exact .nil
    | cons hr _ ih => exact .cons hr ih
  have hnil : ps = [] ↔ ps' = [] := by
    cases h <;> simp
  have hopen := (becomes_byte 123 (by decide)).append (becomes_blank (b := 10) (by decide))
  rw [printObject, printObject]
  simp only [hnil]
  split
  · exact (hopen.append (becomes_tabs depth)).append (becomes_byte 125 (by decide))
  · exact ((hopen.append (becomes_joinMembers hmembers)).append (becomes_tabs _)).append
      (becomes_byte 125 (by decide))

/-- A chain that is printed in one format is printed in the other, and minified to that. -/
def ChainBecomes (chain : Item) : Prop :=
  ∀ depth ps, chain.printChain true depth = printedChain ps → ∀ depth',
    ∃ ps', chain.printChain false depth' = printedChain ps' ∧ List.Forall₂ PartBecomes ps ps'

theorem Scalar.becomes {r : Printed} (h : Scalar item r) (hitem : item.Typed) :
    Becomes .text r.text .text r.text := by
  have hwords : (∀ b ∈ cstr "false", IsToken b) ∧ ∀ b ∈ cstr "true", IsToken b :=
    ⟨List.all_iff_forall_prop.1 (by decide), List.all_iff_forall_prop.1 (by decide)⟩
  cases h with
  | null => exact becomes_tokens isToken_null
  | false => exact becomes_tokens hwords.1
  | true => exact becomes_tokens hwords.2
  | number => exact becomes_printNumber _ _
  | string => exact becomes_printStringPtr hitem.valuestring

/-- A value that is printed with white space is printed without, and minified to that. -/
theorem printValue_becomes {child : Item} {r : Printed} (hitem : item.Typed)
    (hchild : ChainBecomes child)
    (h : printValue true depth item (child.printChain true (depth + 1)) = some r) (depth' : Nat) :
    ∃ r', printValue false depth' item (child.printChain false (depth' + 1)) = some r' ∧
      Becomes .text r.text .text r'.text := by
  rcases printValue_cases h with hscalar | ⟨harray, entries, hentries, rfl⟩ | ⟨hobject, ps, hps, rfl⟩
  · exact ⟨r, hscalar.printValue, hscalar.becomes hitem⟩
  · obtain ⟨ps, hps, rfl⟩ := eq_printedChain_of_mapM_snd hentries
    obtain ⟨ps', hps', hparts⟩ := hchild _ ps hps (depth' + 1)
    refine ⟨printArray false (ps'.map Prod.snd), ?_, becomes_printArray hparts⟩
    rw [printValue_array harray, hps', printedChain, mapM_snd, Option.map_some]
  · obtain ⟨ps', hps', hparts⟩ := hchild _ ps (eq_printedChain_of_mapM_pair hps) (depth' + 1)
    refine ⟨printObject false depth' ps', ?_, becomes_printObject hparts⟩
    rw [printValue_object hobject, hps', printedChain, mapM_pair, Option.map_some]

theorem chainBecomes {chain : Item} (h : chain.Typed) : ChainBecomes chain := by
  induction chain with
  | null =>
      intro depth ps hps depth'
      obtain rfl : ps = [] := List.map_eq_nil_iff.1 hps.symm
      exact ⟨[], rfl, .nil⟩
  | node item child next ihChild ihNext =>
      obtain ⟨hitem, hchild, hnext⟩ := h
      intro depth ps hps depth'
      obtain _ | ⟨r, ps⟩ := ps
      · cases hps
      rw [Item.printChain] at hps
      obtain ⟨hhead, hps⟩ := List.cons.inj hps
      obtain ⟨hname, hvalue⟩ := Prod.mk.inj hhead
      obtain ⟨r', hvalue', hbecomes⟩ := printValue_becomes hitem (ihChild hchild) hvalue depth'
      obtain ⟨ps', hps', hparts⟩ := ihNext hnext depth ps hps depth'
      refine ⟨(printStringPtr item.string, r') :: ps', ?_, .cons ⟨?_, ?_, hbecomes⟩ hparts⟩
      · rw [Item.printChain, hvalue', hps']
        rfl
      · exact congrArg Printed.text hname.symm
      · rw [← hname]
        exact becomes_printStringPtr hitem.string

/-- **The formatted text of an item is minified to its unformatted text.** -/
theorem cJSONMinify_cJSONPrint {t : Item} {r : Printed} (ht : t.Typed) (h : cJSONPrint true t = some r)
    (junk : List UInt8) :
    ∃ r' tail, cJSONPrint false t = some r' ∧
      cJSONMinify (r.text ++ 0 :: junk) = some (r'.text ++ 0 :: tail) := by
  cases t with
  | null => cases h
  | node item child next =>
      obtain ⟨hitem, hchild, -⟩ := ht
      obtain ⟨r', hr', hbecomes⟩ := printValue_becomes hitem (chainBecomes hchild) h 0
      obtain ⟨tail, hminify, -⟩ := cJSONMinify_of_becomes (Or.inl rfl) hbecomes junk
      exact ⟨r', tail, hr', hminify⟩

end Printed

/-- An object with an array of numbers and a string. -/
theorem cJSONMinify_cJSONPrint_sample :
    ∃ r r' tail, cJSONPrint true (sampleItem [.ofInt (-7), .ofInt (2 ^ 52)]) = some r ∧
      cJSONPrint false (sampleItem [.ofInt (-7), .ofInt (2 ^ 52)]) = some r' ∧
      cJSONMinify (r.text ++ 0 :: []) = some (r'.text ++ 0 :: tail) := by
  have hnum : NumPrints true (NumberText.value Double.roundedPow) exactNumber :=
    fun _ _ h => exactNumber_renders Double.powTen_roundedPow.zero h
  obtain ⟨r, hr, -⟩ := cJSONPrint_renders hnum sampleItem_exact
  obtain ⟨r', tail, hr', hminify⟩ := cJSONMinify_cJSONPrint (sampleItem_typed _) hr []
  exact ⟨r, r', tail, hr, hr', hminify⟩

end XToolkits.Json
