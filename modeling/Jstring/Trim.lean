import Jstring.Ctype
import Jstring.Libc
import Jstring.Spans
import Jstring.Strip
import Jstring.Builder
import Mathlib.Data.List.DropRight

/-!
# Trimming in place

`jstr_trimend_len_p`, `jstr_trimend_p`, `jstr_trimstart_len_p`, `jstr_trimstart_p`,
`jstr_trimstart`, `jstr_trim_len_p` and `jstr_trim_p` of `include/string.h`, with
`jstr_isspace` of `include/internal/musl/ctype.h`.

- `Rewrites`: a text of the block is replaced by one that is not longer;
- `Trimmed`: the text without the spaces around it, which there is one of
  (`Trimmed.unique`);
- `trims`: every way to trim both ends leaves it, whichever end goes
  first and however the length is found, and finds nothing more to trim.
-/

namespace Jstr

/-! ## The functions -/

/-- `jstr_isspace`. -/
def isspace (c : UInt8) : Bool := c == 32 || c - 9 < 5

/-- `for (; sz-- && jstr_isspace(*(p - 1)); --p) {}`. -/
def trimendLoop (b : Blk) : Nat → Nat → Run Nat
  | 0, p => .ok p
  | sz + 1, p => do
    let c ← b.read (p - 1)
    if isspace c then trimendLoop b sz (p - 1) else .ok p

/-- `jstr_trimend_len_p`. -/
def trimendLenP (b : Blk) (s sz : Nat) : Run (Blk × Nat) :=
  if sz = 0 then .ok (b, s)
  else do
    let p ← trimendLoop b sz (s + sz)
    let b ← b.write p [0]
    .ok (b, p)

/-- `jstr_trimend_p`. -/
def trimendP (env : Mem) (b : Blk) (s : Nat) : Run (Blk × Nat) := do
  let n ← strlen (b.over env) s
  trimendLenP b s n

/-- `for (; sz && jstr_isspace(*p); ++p, --sz) {}`. -/
def trimstartLoop (b : Blk) : Nat → Nat → Run (Nat × Nat)
  | 0, p => .ok (p, 0)
  | sz + 1, p => do
    let c ← b.read p
    if isspace c then trimstartLoop b sz (p + 1) else .ok (p, sz + 1)

/-- `jstr_trimstart_len_p`. -/
def trimstartLenP (b : Blk) (s sz : Nat) : Run (Blk × Nat) :=
  if sz = 0 then .ok (b, s)
  else do
    let (p, sz) ← trimstartLoop b sz s
    if p ≠ s then stpmoveLen b s p sz else .ok (b, p + sz)

/-- `for (; jstr_isspace(*p); ++p) {}`. -/
def skipSpace (b : Blk) : Nat → Nat → Run Nat
  | 0, _ => .error .diverge
  | fuel + 1, p => do
    let c ← b.read p
    if isspace c then skipSpace b fuel (p + 1) else .ok p

/-- `jstr_trimstart_p`. -/
def trimstartP (env : Mem) (b : Blk) (s : Nat) : Run (Blk × Nat) := do
  let c ← b.read s
  if c = 0 then .ok (b, s)
  else do
    let p ← skipSpace b (sizeMax + 1) s
    let pLen ← strlen (b.over env) p
    if p ≠ s then stpmoveLen b s p pLen else .ok (b, p + pLen)

/-- `jstr_trimstart`. -/
def trimstart (env : Mem) (b : Blk) (s : Nat) : Run Blk := do
  let c ← b.read s
  if c = 0 then .ok b
  else do
    let k ← strspn (b.over env) s [32, 9, 10, 11, 12, 13]
    if k ≠ 0 then do
      let n ← strlen (b.over env) (s + k)
      strmoveLen b s (s + k) n
    else .ok b

/-- `jstr_trim_len_p`. -/
def trimLenP (b : Blk) (s sz : Nat) : Run (Blk × Nat) := do
  let (b, e) ← trimendLenP b s sz
  trimstartLenP b s (e - s)

/-- `jstr_trim_p`. -/
def trimP (env : Mem) (b : Blk) (s : Nat) : Run (Blk × Nat) := do
  let n ← strlen (b.over env) s
  trimLenP b s n

/-- The calls that trim both ends. -/
inductive TrimCall where
  | trimLen
  | trim
  | trimendTrimstart
  | trimstartTrimend
  | trimstartVoidTrimend

/-- On the text of `n` bytes at `s`. -/
def TrimCall.run (env : Mem) (b : Blk) (s n : Nat) : TrimCall → Run (Blk × Nat)
  | .trimLen => trimLenP b s n
  | .trim => trimP env b s
  | .trimendTrimstart => trimendP env b s >>= fun x => trimstartP env x.1 s
  | .trimstartTrimend => trimstartP env b s >>= fun x => trimendP env x.1 s
  | .trimstartVoidTrimend => trimstart env b s >>= fun b => trimendP env b s

/-! ## Spaces -/

theorem isspace_iff (c : UInt8) : isspace c = true ↔ c ∈ ([32, 9, 10, 11, 12, 13] : Bytes) :=
  forall_byte (P := fun c => isspace c = true ↔ c ∈ ([32, 9, 10, 11, 12, 13] : Bytes))
    (by decide +kernel) c

/-- The text without the spaces at its end. -/
def rtrim (l : Bytes) : Bytes := l.rdropWhile isspace

/-- The text without the spaces at its beginning. -/
def ltrim (l : Bytes) : Bytes := l.dropWhile isspace

/-- `t` is `l` without the spaces around it. -/
structure Trimmed (l t : Bytes) : Prop where
  split : ∃ u v, l = u ++ t ++ v ∧ (∀ c ∈ u, isspace c = true) ∧ ∀ c ∈ v, isspace c = true
  head : ∀ c ∈ t.head?, isspace c = false
  last : ∀ c ∈ t.getLast?, isspace c = false

theorem ltrim_split (l : Bytes) : ∃ u, l = u ++ ltrim l ∧ (∀ c ∈ u, isspace c = true) ∧
    ∀ c ∈ (ltrim l).head?, isspace c = false := by
  refine ⟨l.takeWhile isspace, List.takeWhile_append_dropWhile.symm,
    fun c hc => List.mem_takeWhile_imp hc, fun c hc => ?_⟩
  have := List.head?_dropWhile_not isspace l
  rw [ltrim] at hc
  rw [Option.mem_def] at hc
  rw [hc] at this
  simpa using this

theorem rtrim_split (l : Bytes) : ∃ v, l = rtrim l ++ v ∧ (∀ c ∈ v, isspace c = true) ∧
    ∀ c ∈ (rtrim l).getLast?, isspace c = false := by
  obtain ⟨u, hu, hspace, hhead⟩ := ltrim_split l.reverse
  refine ⟨u.reverse, ?_, fun c hc => hspace c (List.mem_reverse.mp hc), fun c hc => hhead c ?_⟩
  · rw [rtrim, List.rdropWhile, ← ltrim, ← List.reverse_append, ← hu, List.reverse_reverse]
  · rwa [rtrim, List.rdropWhile, List.getLast?_reverse] at hc

theorem ltrim_of_space {u t : Bytes} (hu : ∀ c ∈ u, isspace c = true) :
    ltrim (u ++ t) = ltrim t := List.dropWhile_append_of_pos hu

theorem rtrim_of_space {t v : Bytes} (hv : ∀ c ∈ v, isspace c = true) :
    rtrim (t ++ v) = rtrim t := by
  rw [rtrim, List.rdropWhile, List.reverse_append,
    List.dropWhile_append_of_pos fun c hc => hv c (List.mem_reverse.mp hc)]
  rfl

theorem ltrim_of_head {t : Bytes} (ht : ∀ c ∈ t.head?, isspace c = false) : ltrim t = t := by
  cases t with
  | nil => rfl
  | cons c t =>
      have hc := ht c rfl
      rw [ltrim, List.dropWhile_cons_of_neg (by simp [hc])]

theorem rtrim_of_last {t : Bytes} (ht : ∀ c ∈ t.getLast?, isspace c = false) : rtrim t = t := by
  rw [rtrim, List.rdropWhile]
  rw [← List.head?_reverse] at ht
  have := ltrim_of_head ht
  rw [ltrim] at this
  rw [this, List.reverse_reverse]

/-- The two ends do not touch, so either may go first. -/
theorem Trimmed.eq {l t : Bytes} (h : Trimmed l t) :
    ltrim (rtrim l) = t ∧ rtrim (ltrim l) = t := by
  obtain ⟨u, v, rfl, hu, hv⟩ := h.split
  have hl := ltrim_of_head h.head
  have hr := rtrim_of_last h.last
  constructor
  · rw [rtrim_of_space hv]
    cases t using List.reverseRecOn with
    | nil =>
        have hnil : rtrim ([] ++ u) = [] := rtrim_of_space hu
        rw [List.append_nil, ← List.nil_append u, hnil]
        rfl
    | append_singleton t c =>
        have hc := h.last c (by simp)
        rw [rtrim_of_last, ltrim_of_space hu, hl]
        intro d hd
        rw [← List.append_assoc, List.getLast?_concat] at hd
        cases hd
        exact hc
  · rw [List.append_assoc, ltrim_of_space hu]
    cases t with
    | nil =>
        rw [List.nil_append, show ltrim v = [] from List.dropWhile_eq_nil_iff.mpr hv]
        rfl
    | cons c t =>
        rw [ltrim_of_head, rtrim_of_space hv, hr]
        exact h.head

theorem trimmed_ltrim_rtrim (l : Bytes) : Trimmed l (ltrim (rtrim l)) := by
  obtain ⟨v, hv, hspace, hlast⟩ := rtrim_split l
  obtain ⟨u, hu, hspace', hhead⟩ := ltrim_split (rtrim l)
  refine ⟨⟨u, v, ?_, hspace', hspace⟩, hhead, fun c hc => hlast c ?_⟩
  · rw [← hu, ← hv]
  · rw [hu, Option.mem_def, List.getLast?_append, Option.mem_def.mp hc]
    rfl

theorem Trimmed.unique {l t t' : Bytes} (h : Trimmed l t) (h' : Trimmed l t') : t = t' :=
  h.eq.1.symm.trans h'.eq.1

/-! ## Rewriting a text in place -/

/-- The text `l` at `s` becomes `l'`, terminated, and its end is returned; what
is behind stays within the bytes the text had. -/
def Rewrites (b : Blk) (s : Nat) (l l' : Bytes) (r : Run (Blk × Nat)) : Prop :=
  ∃ w, r = .ok (b.put s (l' ++ 0 :: w), s + l'.length) ∧ l'.length + w.length = l.length

section Rewrites

variable {b : Blk} {s : Nat} {l l' l'' : Bytes}

/-- The text rewritten, and the block around it. -/
theorem Rewrites.result {r : Run (Blk × Nat)} (h : Rewrites b s l l' r) (hat : b.At s (l ++ [0])) :
    ∃ b', r = .ok (b', s + l'.length) ∧ b'.addr = b.addr ∧ b'.size = b.size ∧
      b'.At s (l' ++ [0]) ∧
      ∀ q m, b.At q m → q + m.length ≤ s ∨ s + l.length + 1 ≤ q → b'.At q m := by
  obtain ⟨w, rfl, hlen⟩ := h
  have hin := hat.inRange
  rw [List.length_append, ← hlen] at hin
  have hput : (b.put s (l' ++ 0 :: w)).At s (l' ++ [0] ++ w) := by
    rw [← List.append_cons]
    refine Memory.Block.at_put ?_
    rw [List.length_append, List.length_cons]
    exact hin
  refine ⟨_, rfl, rfl, b.put_size .., hput.left, fun q m hq hd => hq.put_of_disjoint ?_⟩
  rw [List.length_append, List.length_cons]
  omega

theorem rewrites_self (hat : b.At s (l ++ [0])) : Rewrites b s l l (.ok (b, s + l.length)) := by
  refine ⟨[], ?_, Nat.add_zero _⟩
  rw [Memory.Block.put_of_at hat]

/-- One rewriting after another. -/
theorem Rewrites.trans {r : Run (Blk × Nat)} {f : Blk × Nat → Run (Blk × Nat)}
    (h : Rewrites b s l l' r) (hat : b.At s (l ++ [0]))
    (hf : ∀ b', b'.At s (l' ++ [0]) → Rewrites b' s l' l'' (f (b', s + l'.length))) :
    Rewrites b s l l'' (r >>= f) := by
  obtain ⟨b', hr, -, -, hat', -⟩ := h.result hat
  obtain ⟨w, rfl, hlen⟩ := h
  cases hr
  obtain ⟨w', hr', hlen'⟩ := hf _ hat'
  refine ⟨w' ++ w, ?_, ?_⟩
  · have hmid := @Memory.Block.put_put_mid _ b s [] (l' ++ [0]) (l'' ++ 0 :: w') w (by
      simp only [List.length_append, List.length_cons, List.length_nil]
      omega)
    simp only [List.nil_append, List.append_assoc, List.length_nil, Nat.add_zero,
      List.cons_append] at hmid
    rw [← hmid]
    exact hr'
  · rw [List.length_append]
    omega

/-- What an overlay leaves of a known content is behind it. -/
theorem put_front {m x : Bytes} (hat : b.At s m) (hle : x.length ≤ m.length) :
    b.put s x = b.put s (x ++ m.drop x.length) := by
  have htail : (b.put s x).At (s + x.length) (m.drop x.length) :=
    (hat.drop hle).put_of_disjoint (.inr (Nat.le_refl _))
  exact (Memory.Block.put_of_at htail).symm.trans (Memory.Block.put_append ..)

/-- The tail of the text moved down over its beginning, with the terminator. -/
theorem stpmoveLen_rewrites {u : Bytes} (hat : b.At s (u ++ l' ++ [0])) :
    Rewrites b s (u ++ l') l' (stpmoveLen b s (s + u.length) l'.length) := by
  have hin := hat.inRange
  rw [List.length_append, List.length_append, List.length_singleton] at hin
  have hsrc : b.At (s + u.length) (l' ++ [0]) := by
    rw [List.append_assoc] at hat
    exact hat.right
  have hmove : stpmoveLen b s (s + u.length) l'.length
      = .ok (b.put s (l' ++ [0]), s + l'.length) :=
    stpmoveLen_eq hsrc.left rfl ⟨hin.1, by have := hin.2; omega⟩
  have hput := put_front (x := l' ++ [0]) hat (by
    simp only [List.length_append, List.length_singleton]
    omega)
  rw [List.append_assoc l', List.singleton_append] at hput
  refine ⟨(u ++ l' ++ [0]).drop (l' ++ [0]).length, hmove.trans (by rw [hput]), ?_⟩
  simp only [List.length_drop, List.length_append, List.length_singleton]
  omega

end Rewrites

/-! ## The loops -/

section Loops

variable {b : Blk}

theorem trimendLoop_eq : ∀ {l : Bytes} {s : Nat}, b.At s l →
    trimendLoop b l.length (s + l.length) = .ok (s + (rtrim l).length) := by
  intro l s
  induction l using List.reverseRecOn with
  | nil => exact fun _ => rfl
  | append_singleton l c ih =>
      intro hat
      have hread : b.read (s + l.length) = .ok c := Blk.read_eq hat.right
      rw [List.length_append, List.length_singleton, trimendLoop,
        show s + (l.length + 1) - 1 = s + l.length by omega, hread]
      simp only [bind, Except.bind]
      rw [rtrim]
      cases hc : isspace c with
      | true =>
          rw [if_pos rfl, List.rdropWhile_concat_pos _ _ _ hc]
          exact ih hat.left
      | false =>
          rw [if_neg (by decide), List.rdropWhile_concat_neg _ _ _ (by simp [hc]),
            List.length_append, List.length_singleton]

/-- The spaces the text begins with, and the rest. -/
theorem trimstartLoop_eq : ∀ {l : Bytes} {p : Nat}, b.At p l →
    trimstartLoop b l.length p
      = .ok (p + (l.takeWhile isspace).length, (ltrim l).length)
  | [], _, _ => rfl
  | c :: l, p, hat => by
      obtain ⟨hread, hrest⟩ := Blk.read_cons hat
      rw [List.length_cons, trimstartLoop, hread, ltrim]
      simp only [bind, Except.bind]
      cases hc : isspace c with
      | true =>
          rw [if_pos rfl, trimstartLoop_eq hrest, List.takeWhile_cons_of_pos hc,
            List.dropWhile_cons_of_pos hc, List.length_cons]
          rw [Nat.add_assoc, Nat.add_comm 1]
          rfl
      | false =>
          rw [if_neg (by decide), List.takeWhile_cons_of_neg (by simp [hc]),
            List.dropWhile_cons_of_neg (by simp [hc])]
          rfl

/-- Without the length the terminator, which is no space, stops it. -/
theorem skipSpace_eq : ∀ {l : Bytes} {p fuel : Nat}, b.At p (l ++ [0]) → l.length < fuel →
    skipSpace b fuel p = .ok (p + (l.takeWhile isspace).length)
  | _, _, 0, _, hf => absurd hf (Nat.not_lt_zero _)
  | [], p, fuel + 1, hat, _ => by
      rw [skipSpace, Blk.read_eq hat]
      rfl
  | c :: l, p, fuel + 1, hat, hf => by
      obtain ⟨hread, hrest⟩ := Blk.read_cons hat
      rw [skipSpace, hread]
      simp only [bind, Except.bind]
      cases hc : isspace c with
      | true =>
          rw [if_pos rfl, skipSpace_eq hrest (by rw [List.length_cons] at hf; omega),
            List.takeWhile_cons_of_pos hc, List.length_cons]
          rw [Nat.add_assoc, Nat.add_comm 1]
      | false =>
          rw [if_neg (by decide), List.takeWhile_cons_of_neg (by simp [hc])]
          rfl

end Loops

/-! ## One end -/

section Ends

variable {env : Mem} {b : Blk} {s : Nat} {l : Bytes}

theorem trimendLenP_rewrites (hat : b.At s (l ++ [0])) :
    Rewrites b s l (rtrim l) (trimendLenP b s l.length) := by
  obtain ⟨v, hv, -, -⟩ := rtrim_split l
  have hlen := congrArg List.length hv
  rw [List.length_append] at hlen
  by_cases hnil : l.length = 0
  · rw [trimendLenP, if_pos hnil]
    obtain rfl := List.eq_nil_of_length_eq_zero hnil
    exact rewrites_self hat
  · have hin := hat.inRange
    rw [List.length_append, List.length_singleton] at hin
    have hwrite : b.write (s + (rtrim l).length) [0] = .ok (b.put (s + (rtrim l).length) [0]) :=
      Blk.write_eq ⟨by have := hin.1; omega, by
        have := hin.2
        rw [List.length_singleton]
        omega⟩
    rw [trimendLenP, if_neg hnil, trimendLoop_eq hat.left]
    simp only [bind, Except.bind]
    rw [hwrite]
    -- the text in front of the terminator is there already
    have hself : b.put s (rtrim l) = b := by
      rw [hv] at hat
      exact Memory.Block.put_of_at hat.left.left
    have hput : b.put (s + (rtrim l).length) [0] = b.put s (rtrim l ++ [0]) := by
      rw [← Memory.Block.put_append, hself]
    have hfront := put_front (x := rtrim l ++ [0]) hat (by
      simp only [List.length_append, List.length_singleton]
      omega)
    rw [List.append_assoc (rtrim l), List.singleton_append] at hfront
    refine ⟨(l ++ [0]).drop (rtrim l ++ [0]).length, by rw [hput, hfront], ?_⟩
    simp only [List.length_drop, List.length_append, List.length_singleton]
    omega

theorem trimstartLenP_rewrites (hat : b.At s (l ++ [0])) :
    Rewrites b s l (ltrim l) (trimstartLenP b s l.length) := by
  by_cases hnil : l.length = 0
  · rw [trimstartLenP, if_pos hnil]
    obtain rfl := List.eq_nil_of_length_eq_zero hnil
    exact rewrites_self hat
  · have hsplit : l.takeWhile isspace ++ ltrim l = l := List.takeWhile_append_dropWhile
    rw [trimstartLenP, if_neg hnil, trimstartLoop_eq hat.left]
    simp only [bind, Except.bind]
    rcases Nat.eq_zero_or_pos (l.takeWhile isspace).length with hzero | hpos
    · have hsame : ltrim l = l := by
        rwa [List.eq_nil_of_length_eq_zero hzero] at hsplit
      rw [hzero, if_neg (by omega), hsame]
      exact rewrites_self hat
    · rw [if_pos (by omega)]
      have hmove := @stpmoveLen_rewrites b s (ltrim l) (l.takeWhile isspace) (by rwa [hsplit])
      rwa [hsplit] at hmove

variable (h0 : 0 ∉ l) (hfit : s + l.length ≤ sizeMax)

include h0 hfit in
theorem trimendP_rewrites (hat : b.At s (l ++ [0])) :
    Rewrites b s l (rtrim l) (trimendP env b s) := by
  rw [trimendP, (cstr_over hat h0 hfit).strlen_eq]
  exact trimendLenP_rewrites hat

include h0 hfit in
/-- The length of what follows the spaces is found behind them. -/
theorem trimstartP_rewrites (hat : b.At s (l ++ [0])) :
    Rewrites b s l (ltrim l) (trimstartP env b s) := by
  have hsplit : l.takeWhile isspace ++ ltrim l = l := List.takeWhile_append_dropWhile
  have hlen := congrArg List.length hsplit
  rw [List.length_append] at hlen
  obtain ⟨c, hread, hnul⟩ := Blk.read_text hat h0 (Nat.zero_le _)
  rw [Nat.add_zero] at hread
  rw [trimstartP, hread]
  simp only [bind, Except.bind]
  by_cases hc : c = 0
  · obtain rfl := List.eq_nil_of_length_eq_zero (hnul.mp hc).symm
    rw [if_pos hc]
    exact rewrites_self hat
  · have hrest : b.At (s + (l.takeWhile isspace).length) (ltrim l ++ [0]) := by
      rw [← hsplit, List.append_assoc] at hat
      exact hat.right
    have hlt : l.length < sizeMax + 1 := by omega
    rw [if_neg hc, skipSpace_eq hat hlt]
    simp only
    rw [(cstr_over hrest (fun hm => h0 (hsplit ▸ List.mem_append_right _ hm))
      (by omega)).strlen_eq]
    simp only
    have hspec := trimstartLenP_rewrites hat
    rw [trimstartLenP, if_neg fun h => hc (hnul.mpr h.symm), trimstartLoop_eq hat.left] at hspec
    exact hspec

include h0 hfit in
/-- The set of `strspn` is that of the spaces. -/
theorem trimstart_eq (hat : b.At s (l ++ [0])) :
    trimstart env b s = (trimstartP env b s).map (·.1) := by
  have hset : spn [32, 9, 10, 11, 12, 13] l = (l.takeWhile isspace).length := by
    rw [spn]
    congr 2
    funext c
    rw [Bool.eq_iff_iff, isspace_iff, decide_eq_true_eq]
  have hsplit : l.takeWhile isspace ++ ltrim l = l := List.takeWhile_append_dropWhile
  have hlen := congrArg List.length hsplit
  rw [List.length_append] at hlen
  obtain ⟨c, hread, hnul⟩ := Blk.read_text hat h0 (Nat.zero_le _)
  rw [Nat.add_zero] at hread
  rw [trimstart, trimstartP, hread]
  simp only [bind, Except.bind]
  by_cases hc : c = 0
  · rw [if_pos hc, if_pos hc]
    rfl
  · have hrest : b.At (s + (l.takeWhile isspace).length) (ltrim l ++ [0]) := by
      rw [← hsplit, List.append_assoc] at hat
      exact hat.right
    have hlt : l.length < sizeMax + 1 := by omega
    have hstr := (@cstr_over env _ _ _ hrest
      (fun hm => h0 (hsplit ▸ List.mem_append_right _ hm)) (by omega)).strlen_eq
    rw [if_neg hc, if_neg hc, skipSpace_eq hat hlt, (cstr_over hat h0 hfit).strspn_eq, hset]
    simp only [hstr]
    by_cases hk : (l.takeWhile isspace).length = 0
    · rw [if_neg (by omega), if_neg (by omega)]
      rfl
    · rw [if_pos hk, if_pos (by omega), stpmoveLen]
      cases strmoveLen b s (s + (l.takeWhile isspace).length) (ltrim l).length <;> rfl

end Ends

/-! ## Both ends -/

section Both

variable {env : Mem} {b : Blk} {s : Nat} {l : Bytes}

theorem trimLenP_rewrites (hat : b.At s (l ++ [0])) :
    Rewrites b s l (ltrim (rtrim l)) (trimLenP b s l.length) := by
  rw [trimLenP]
  refine (trimendLenP_rewrites hat).trans hat fun b' hat' => ?_
  simp only [Nat.add_sub_cancel_left]
  exact trimstartLenP_rewrites hat'

variable (h0 : 0 ∉ l) (hfit : s + l.length ≤ sizeMax)

include h0 hfit in
theorem trimP_rewrites (hat : b.At s (l ++ [0])) :
    Rewrites b s l (ltrim (rtrim l)) (trimP env b s) := by
  rw [trimP, (cstr_over hat h0 hfit).strlen_eq]
  exact trimLenP_rewrites hat

include h0 hfit in
/-- What is left of a string is one. -/
theorem string_left : (0 ∉ rtrim l ∧ s + (rtrim l).length ≤ sizeMax) ∧
    0 ∉ ltrim l ∧ s + (ltrim l).length ≤ sizeMax := by
  have hr := List.rdropWhile_prefix isspace l
  have hl := List.dropWhile_suffix isspace (l := l)
  refine ⟨⟨fun h => h0 (hr.subset h), ?_⟩, fun h => h0 (hl.subset h), ?_⟩
  · have := hr.length_le
    rw [rtrim]
    omega
  · have := hl.length_le
    rw [ltrim]
    omega

include h0 hfit in
theorem TrimCall.run_rewrites (hat : b.At s (l ++ [0])) (call : TrimCall) :
    Rewrites b s l (ltrim (rtrim l)) (call.run env b s l.length) := by
  obtain ⟨⟨h0r, hfitr⟩, h0l, hfitl⟩ := @string_left s l h0 hfit
  have hother : Rewrites b s l (ltrim (rtrim l))
      (trimstartP env b s >>= fun x => trimendP env x.1 s) := by
    refine (trimstartP_rewrites h0 hfit hat).trans hat fun b' hat' => ?_
    have hend := @trimendP_rewrites env _ _ _ h0l hfitl hat'
    rwa [(trimmed_ltrim_rtrim l).eq.2] at hend
  cases call with
  | trimLen => exact trimLenP_rewrites hat
  | trim => exact trimP_rewrites h0 hfit hat
  | trimendTrimstart =>
      exact (trimendP_rewrites h0 hfit hat).trans hat fun b' hat' =>
        trimstartP_rewrites h0r hfitr hat'
  | trimstartTrimend => exact hother
  | trimstartVoidTrimend =>
      rw [TrimCall.run, trimstart_eq h0 hfit hat]
      revert hother
      cases trimstartP env b s with
      | error f => exact id
      | ok x => exact id

end Both

/-- A text without spaces around it is left as it is. -/
theorem TrimCall.run_trimmed (env : Mem) {b : Blk} {s : Nat} {l t : Bytes} (ht : Trimmed l t)
    (h0 : 0 ∉ t) (hfit : s + t.length ≤ sizeMax) (hat : b.At s (t ++ [0])) (call : TrimCall) :
    call.run env b s t.length = .ok (b, s + t.length) := by
  have hself : ltrim (rtrim t) = t :=
    (Trimmed.eq ⟨⟨[], [], by simp, by simp, by simp⟩, ht.head, ht.last⟩).1
  obtain ⟨w, hr, hlen⟩ := @TrimCall.run_rewrites env _ _ _ h0 hfit hat call
  rw [hself] at hr hlen
  obtain rfl : w = [] := List.eq_nil_of_length_eq_zero (by omega)
  rw [hr, Memory.Block.put_of_at hat]

/-- Trimmed from the end and from the beginning, or the other way round, with the
length or without it: the block then holds the text without the spaces around it,
and trimming again, in the same way or in another, changes nothing. -/
theorem trims (env : Mem) {b : Blk} {s : Nat} {l : Bytes} (hat : b.At s (l ++ [0])) (h0 : 0 ∉ l)
    (hfit : s + l.length ≤ sizeMax) : ∃ t, Trimmed l t ∧ (∀ t', Trimmed l t' → t' = t) ∧
      (∀ call : TrimCall, Rewrites b s l t (call.run env b s l.length)) ∧
      ∀ (call : TrimCall) (b' : Blk), b'.At s (t ++ [0]) →
        call.run env b' s t.length = .ok (b', s + t.length) := by
  have ht := trimmed_ltrim_rtrim l
  obtain ⟨⟨h0r, hfitr⟩, -, -⟩ := @string_left s l h0 hfit
  obtain ⟨-, h0t, hfitt⟩ := @string_left s _ h0r hfitr
  exact ⟨ltrim (rtrim l), ht, fun t' ht' => ht'.unique ht,
    fun call => TrimCall.run_rewrites h0 hfit hat call,
    fun call b' hat' => TrimCall.run_trimmed env ht h0t hfitt hat' call⟩

/-- " a b\n" with what follows it in the block. -/
theorem trims_ab : ∃ t, Trimmed [32, 97, 32, 98, 10] t ∧
    (∀ t', Trimmed [32, 97, 32, 98, 10] t' → t' = t) ∧
    Rewrites ⟨64, [32, 97, 32, 98, 10, 0, 9]⟩ 64 [32, 97, 32, 98, 10] t
      (trimLenP ⟨64, [32, 97, 32, 98, 10, 0, 9]⟩ 64 5) := by
  have hat : Memory.Block.At ⟨64, [32, 97, 32, 98, 10, 0, 9]⟩ 64
      (([32, 97, 32, 98, 10] : Bytes) ++ [0]) := ⟨by decide, by decide⟩
  obtain ⟨t, ht, huniq, hcalls, -⟩ := trims (memOf []) hat (by decide) (by decide)
  exact ⟨t, ht, huniq, hcalls .trimLen⟩

end Jstr
