import Jstring.Scans
import Jstring.Lib.Traced

/-!
# What the wide searches load

The searches of `include/internal/simd.h` and `jstr_internal_memrchr_musl`
once more, with every load recorded: an address and how many bytes from
there. Forgetting the record gives the functions of the other modules
(`..._result`). A load stays on the pages of the input (`OnPages`) when it
is aligned and meets the input, or when it was found not to cross a page.

* `memrchr`, vectors and words, loads one block or word below a range it
  has searched through: off its pages exactly when the range begins a page
  and has no match (`simdMemrchrLoads_iff`, `memrchrMuslLoads_iff`);
* the other searches never leave the pages of their inputs.
-/

namespace Jstr

open Words Bits Trace Trace.Traced

/-- A load of `width` bytes. -/
structure Load where
  addr : Nat
  width : Nat
  deriving DecidableEq, Repr

/-- A computation with its loads. -/
abbrev Loads (α : Type) := Traced Fault Load α

/-- `LOAD(p)` and `LOADU(p)`. -/
def loadVec (V : Nat) (mem : Mem) (p : Nat) : Loads Vec := do
  emit ⟨p, V⟩
  return loadu mem p

/-- `*p`. -/
def loadByte (mem : Mem) (p : Nat) : Loads UInt8 := do
  emit ⟨p, 1⟩
  return mem p

/-- `*(size_t *)p`. -/
def loadWord (mem : Mem) (p : Nat) : Loads UInt64 := do
  emit ⟨p, 8⟩
  return leWord fun i => mem (p + i)

@[simp] theorem loadVec_result (V : Nat) (mem : Mem) (p : Nat) :
    (loadVec V mem p).result = .ok (loadu mem p) := rfl

@[simp] theorem loadByte_result (mem : Mem) (p : Nat) : (loadByte mem p).result = .ok (mem p) := rfl

@[simp] theorem loadWord_result (mem : Mem) (p : Nat) :
    (loadWord mem p).result = .ok (leWord fun i => mem (p + i)) := rfl

/-! ## The searches -/

/-- The loop of `jstr_internal_simd_memrchr`. -/
def memrchrBlocksLoads (V : Nat) (mem : Mem) (s : Nat) (c : UInt8) :
    Nat → Nat → Loads (Option Nat)
  | 0, _ => fail .diverge
  | fuel + 1, e =>
    if e ≥ s then do
      let p := e - V
      let sv ← loadVec V mem p
      let m := cmpeq8Mask V sv (setone8 c)
      if m ≠ 0#V then
        let i := V - 1 - lz m
        return if p + i ≥ s then some (p + i) else none
      else memrchrBlocksLoads V mem s c fuel p
    else return none

/-- `jstr_internal_simd_memrchr`. -/
def simdMemrchrLoads (V : Nat) (mem : Mem) (s : Nat) (c : UInt8) (n : Nat) : Loads (Option Nat) :=
  if n = 0 then return none
  else do
    let e := alignUp (s + n) V
    let off := e - (s + n)
    let p := e - V
    let sv ← loadVec V mem p
    let m := cmpeq8Mask V sv (setone8 c) <<< off
    if m ≠ 0#V then
      let i := V - 1 - lz m
      return if p + i - off ≥ s then some (p + i - off) else none
    else memrchrBlocksLoads V mem s c (n + 1) p

/-- The byte loop of `jstr_internal_memrchr_musl` down to a word boundary. -/
def memrchrAlignLoads (mem : Mem) (s : Nat) (c : UInt8) : Nat → Loads (Option Nat ⊕ Nat)
  | 0 => if s % 8 ≠ 0 then return .inl none else return .inr 0
  | n + 1 =>
    if (s + (n + 1)) % 8 ≠ 0 then do
      let x ← loadByte mem (s + n)
      if x = c then return .inl (some (s + n)) else memrchrAlignLoads mem s c n
    else return .inr (n + 1)

/-- Its word loop, behind the load of the first word: `w = *--ws` is
loaded before `n` is looked at again. -/
def memrchrWordsLoads (mem : Mem) (s : Nat) (k : UInt64) : Nat → UInt64 → Loads Nat
  | n + 8, w =>
    if !hasZero (w ^^^ k) then do
      let w ← loadWord mem (s + n - 8)
      memrchrWordsLoads mem s k n w
    else return n + 8
  | n, _ => return n

/-- Its last loop. -/
def memrchrBytesLoads (mem : Mem) (s : Nat) (c : UInt8) : Nat → Loads (Option Nat)
  | 0 => return none
  | n + 1 => do
    let x ← loadByte mem (s + n)
    if x = c then return some (s + n) else memrchrBytesLoads mem s c n

/-- `jstr_internal_memrchr_musl`. -/
def memrchrMuslLoads (cfg : Build) (mem : Mem) (s : Nat) (c : UInt8) (n : Nat) :
    Loads (Option Nat) :=
  if cfg.haveAttrMayAlias then do
    match ← memrchrAlignLoads mem s c n with
    | .inl r => return r
    | .inr n =>
      if n ≥ 8 then
        let x ← loadByte mem (s + n - 1)
        if x ≠ c then
          let w ← loadWord mem (s + n - 8)
          let n ← memrchrWordsLoads mem s (ones * c.toUInt64) n w
          memrchrBytesLoads mem s c n
        else memrchrBytesLoads mem s c n
      else memrchrBytesLoads mem s c n
  else memrchrBytesLoads mem s c n

/-- The loop of `jstr_internal_simd_memcasechr`. -/
def memcasechrBlocksLoads (V : Nat) (mem : Mem) (c : UInt8) (last : Nat) :
    Nat → Nat → Loads (Option Nat)
  | 0, _ => fail .diverge
  | fuel + 1, p =>
    if p < last then do
      let sv ← loadVec V mem p
      let m := cmpeq8Mask V sv (setone8 (tolower c)) ||| cmpeq8Mask V sv (setone8 (toupper c))
      if m ≠ 0#V then return if p + tz m < last then some (p + tz m) else none
      else memcasechrBlocksLoads V mem c last fuel (p + V)
    else return none

/-- `jstr_internal_simd_memcasechr`. -/
def simdMemcasechrLoads (V : Nat) (mem : Mem) (s : Nat) (c : UInt8) (n : Nat) :
    Loads (Option Nat) :=
  if n = 0 then return none
  else do
    let last := s + n
    let off := s - alignDown s V
    let p := s - off
    let sv ← loadVec V mem p
    let m := (cmpeq8Mask V sv (setone8 (tolower c)) |||
      cmpeq8Mask V sv (setone8 (toupper c))) >>> off
    if m ≠ 0#V then
      let i := off + tz m
      return if p + i < last then some (p + i) else none
    else memcasechrBlocksLoads V mem c last (n + 1) (p + V)

/-- The loop of the vector searches for the terminator, by the comparison
they make. -/
def chrnulBlocksLoads {V : Nat} (cmp : Vec → BitVec V) (mem : Mem) : Nat → Nat → Loads Nat
  | 0, _ => fail .diverge
  | fuel + 1, p => do
    let sv ← loadVec V mem p
    let m := cmp sv
    if m ≠ 0#V then return p + tz m else chrnulBlocksLoads cmp mem fuel (p + V)

def simdChrnulLoads {V : Nat} (cmp : Vec → BitVec V) (mem : Mem) (s : Nat) : Loads Nat := do
  let off := s - alignDown s V
  let p := s - off
  let sv ← loadVec V mem p
  let m := cmp sv >>> off
  if m ≠ 0#V then return p + off + tz m else chrnulBlocksLoads cmp mem (sizeMax + 1) (p + V)

/-- `jstr_internal_simd_strchrnul`. -/
def simdStrchrnulLoads (V : Nat) (mem : Mem) (s : Nat) (c : UInt8) : Loads Nat :=
  simdChrnulLoads (fun sv => cmpeq8Mask V sv (setone8 c) ||| cmpeq8Mask V sv (setone8 0)) mem s

/-- `jstr_internal_simd_strcasechrnul`. -/
def simdStrcasechrnulLoads (V : Nat) (mem : Mem) (s : Nat) (c : UInt8) : Loads Nat :=
  simdChrnulLoads (fun sv => (cmpeq8Mask V sv (setone8 (tolower c)) |||
    cmpeq8Mask V sv (setone8 (toupper c))) ||| cmpeq8Mask V sv (setone8 0)) mem s

/-! ## Without the record -/

section Result

variable {V : Nat} {mem : Mem} {s : Nat} {c : UInt8}

theorem memrchrBlocksLoads_result : ∀ (fuel e : Nat),
    (memrchrBlocksLoads V mem s c fuel e).result = memrchrBlocks V mem s c fuel e
  | 0, e => rfl
  | fuel + 1, e => by
      simp only [memrchrBlocksLoads, memrchrBlocks, result_ite, result_bind, loadVec_result,
        Except.bind, result_pure, memrchrBlocksLoads_result fuel (e - V)]

theorem simdMemrchrLoads_result (n : Nat) :
    (simdMemrchrLoads V mem s c n).result = simdMemrchr V mem s c n := by
  simp only [simdMemrchrLoads, simdMemrchr, result_ite, result_bind, loadVec_result,
    Except.bind, result_pure, memrchrBlocksLoads_result]

theorem memrchrAlignLoads_result : ∀ n : Nat,
    (memrchrAlignLoads mem s c n).result = .ok (memrchrAlign mem s c n)
  | 0 => by
      simp only [memrchrAlignLoads, memrchrAlign, result_ite, result_pure]
      split <;> rfl
  | n + 1 => by
      simp only [memrchrAlignLoads, memrchrAlign, result_ite, result_bind, loadByte_result,
        Except.bind, result_pure, memrchrAlignLoads_result n]
      split
      · split <;> rfl
      · rfl

theorem memrchrBytesLoads_result : ∀ n : Nat,
    (memrchrBytesLoads mem s c n).result = .ok (libcMemrchr mem s c n)
  | 0 => rfl
  | n + 1 => by
      simp only [memrchrBytesLoads, libcMemrchr, result_ite, result_bind, loadByte_result,
        Except.bind, result_pure, memrchrBytesLoads_result n]
      split <;> rfl

/-- The word at hand is the one below the bytes left. -/
theorem memrchrWordsLoads_result (k : UInt64) (n : Nat) : ∀ w : UInt64,
    (8 ≤ n → w = leWord fun i => mem (s + n - 8 + i)) →
    (memrchrWordsLoads mem s k n w).result = .ok (memrchrWords mem s k n) := by
  induction n using Nat.strong_induction_on with
  | _ n ih =>
      intro w hw
      rcases Nat.lt_or_ge n 8 with hlt | hge
      · have hstop : memrchrWordsLoads mem s k n w = pure n := by
          rw [memrchrWordsLoads]
          rintro m rfl
          omega
        have hstop' : memrchrWords mem s k n = n := by
          rw [memrchrWords]
          rintro m rfl
          omega
        rw [hstop, hstop', result_pure]
      · obtain ⟨m, rfl⟩ : ∃ m, n = m + 8 := ⟨n - 8, by omega⟩
        rw [Nat.add_sub_assoc hge, Nat.add_sub_cancel] at hw
        rw [hw hge, memrchrWordsLoads, memrchrWords]
        simp only [result_ite, result_bind, loadWord_result, Except.bind, result_pure]
        rw [ih m (by omega) _ fun _ => rfl]
        split <;> rfl

theorem memrchrMuslLoads_result (cfg : Build) (n : Nat) :
    (memrchrMuslLoads cfg mem s c n).result = .ok (memrchrMusl cfg mem s c n) := by
  rw [memrchrMuslLoads, memrchrMusl]
  by_cases hcfg : cfg.haveAttrMayAlias = true
  · rw [if_pos hcfg, if_pos hcfg]
    simp only [result_bind, memrchrAlignLoads_result, Except.bind]
    rcases memrchrAlign mem s c n with r | m
    · rfl
    · by_cases h8 : m ≥ 8
      · have hword := @memrchrWordsLoads_result mem s (ones * c.toUInt64) m
          (leWord fun i => mem (s + m - 8 + i)) fun _ => rfl
        simp only [h8, if_true, true_and, result_bind, loadByte_result, loadWord_result,
          Except.bind, result_ite, hword, memrchrBytesLoads_result]
        split <;> rfl
      · simp only [h8, if_false, false_and, memrchrBytesLoads_result]
  · rw [if_neg hcfg, if_neg hcfg, memrchrBytesLoads_result]

theorem memcasechrBlocksLoads_result (last : Nat) : ∀ (fuel p : Nat),
    (memcasechrBlocksLoads V mem c last fuel p).result = memcasechrBlocks V mem c last fuel p
  | 0, p => rfl
  | fuel + 1, p => by
      simp only [memcasechrBlocksLoads, memcasechrBlocks, result_ite, result_bind,
        loadVec_result, Except.bind, result_pure, memcasechrBlocksLoads_result last fuel (p + V)]
      rfl

theorem simdMemcasechrLoads_result (n : Nat) :
    (simdMemcasechrLoads V mem s c n).result = simdMemcasechr V mem s c n := by
  simp only [simdMemcasechrLoads, simdMemcasechr, result_ite, result_bind, loadVec_result,
    Except.bind, result_pure, memcasechrBlocksLoads_result]
  rfl

theorem chrnulBlocksLoads_result (cmp : Vec → BitVec V) : ∀ (fuel p : Nat),
    (chrnulBlocksLoads cmp mem fuel p).result
      = chrnulBlocks (fun p => cmp (loadu mem p)) fuel p
  | 0, p => rfl
  | fuel + 1, p => by
      simp only [chrnulBlocksLoads, chrnulBlocks, result_ite, result_bind, loadVec_result,
        Except.bind, result_pure, chrnulBlocksLoads_result cmp fuel (p + V)]

theorem simdChrnulLoads_result (cmp : Vec → BitVec V) :
    (simdChrnulLoads cmp mem s).result = simdChrnul (fun p => cmp (loadu mem p)) s := by
  simp only [simdChrnulLoads, simdChrnul, result_ite, result_bind, loadVec_result, Except.bind,
    result_pure, chrnulBlocksLoads_result]

theorem simdStrchrnulLoads_result :
    (simdStrchrnulLoads V mem s c).result = simdStrchrnul V mem s c :=
  simdChrnulLoads_result _

theorem simdStrcasechrnulLoads_result :
    (simdStrcasechrnulLoads V mem s c).result = simdStrcasechrnul V mem s c := by
  rw [simdStrcasechrnul_eq]
  exact simdChrnulLoads_result _

end Result

/-! ## Pages -/

/-- The address is on a page with a byte of the range. -/
def OnPage (s n a : Nat) : Prop := ∃ i < n, (s + i) / 4096 = a / 4096

/-- Every byte of the load is. -/
def OnPages (s n : Nat) (ld : Load) : Prop := ∀ i < ld.width, OnPage s n (ld.addr + i)

section Pages

variable {s n p k V : Nat}

theorem onPage_of_mem {a : Nat} (h1 : s ≤ a) (h2 : a < s + n) : OnPage s n a :=
  ⟨a - s, by omega, by rw [Nat.add_sub_cancel' h1]⟩

/-- A load inside the range. -/
theorem onPages_of_inside (h1 : s ≤ p) (h2 : p + k ≤ s + n) : OnPages s n ⟨p, k⟩ :=
  fun i hi => onPage_of_mem (by simp only at hi ⊢; omega) (by simp only at hi ⊢; omega)

theorem OnPage.of_same {a a' : Nat} (h : OnPage s n a) (heq : a / 4096 = a' / 4096) :
    OnPage s n a' := by
  obtain ⟨i, hi, hpage⟩ := h
  exact ⟨i, hi, hpage.trans heq⟩

/-- An aligned block lies on one page. -/
theorem block_page (hV : V ∣ 4096) (hp : V ∣ p) {i : Nat} (hi : i < V) :
    (p + i) / 4096 = p / 4096 := by
  obtain ⟨m, hm⟩ := hV
  obtain ⟨q, rfl⟩ := hp
  have hpos : 0 < V := by omega
  rw [hm, ← Nat.div_div_eq_div_mul, ← Nat.div_div_eq_div_mul, Nat.mul_add_div hpos,
    Nat.div_eq_of_lt hi, Nat.mul_div_cancel_left q hpos, Nat.add_zero]

/-- An aligned block that meets the range. -/
theorem onPages_block (hV : V ∣ 4096) (hp : V ∣ p) {a : Nat} (h1 : p ≤ a) (h2 : a < p + V)
    (ha : OnPage s n a) : OnPages s n ⟨p, V⟩ := by
  intro i hi
  have hbase := block_page hV hp (show a - p < V by omega)
  rw [Nat.add_sub_cancel' h1] at hbase
  exact ha.of_same (hbase.trans (block_page hV hp hi).symm)

/-- A block that was found not to cross a page. -/
theorem onPages_of_notCrossing (hp : OnPage s n p) (h : notCrossingPage p k = true) :
    OnPages s n ⟨p, k⟩ := by
  intro i hi
  refine hp.of_same ?_
  simp only at hi ⊢
  rw [notCrossingPage, decide_eq_true_eq, alignUp, alignDown] at h
  omega

/-- The byte below a range that does not begin a page. -/
theorem onPage_pred (hs : ¬4096 ∣ s) (hn : 0 < n) : OnPage s n (s - 1) := by
  refine ⟨0, hn, ?_⟩
  omega

/-- The byte below a range that begins a page. -/
theorem not_onPage_of_lt (hs : 4096 ∣ s) {a : Nat} (ha : a < s) : ¬OnPage s n a := by
  rintro ⟨i, -, hi⟩
  omega

theorem VecSize.dvd_page (v : VecSize) : v.bytes ∣ 4096 := by cases v <;> decide

end Pages

/-! ## Backward -/

theorem always_loadVec {V : Nat} {mem : Mem} {p : Nat} {P : Load → Prop} (h : P ⟨p, V⟩) :
    Always P (loadVec V mem p) :=
  (always_emit h).bind fun _ _ => always_pure _

theorem always_loadByte {mem : Mem} {p : Nat} {P : Load → Prop} (h : P ⟨p, 1⟩) :
    Always P (loadByte mem p) :=
  (always_emit h).bind fun _ _ => always_pure _

theorem always_loadWord {mem : Mem} {p : Nat} {P : Load → Prop} (h : P ⟨p, 8⟩) :
    Always P (loadWord mem p) :=
  (always_emit h).bind fun _ _ => always_pure _

section Memrchr

variable {V : Nat} {mem : Mem} {s n : Nat} {c : UInt8}

/-- A block with a byte of the range or, below a range that does not begin
a page, the block right below. -/
theorem onPages_below {w e : Nat} (hw : w ∣ 4096) (hdvd : w ∣ e) (he : w ≤ e) (hw0 : 0 < w)
    (hn : 0 < n) (hse : s ≤ e) (hen : e < s + n + w) (hpage : e = s → ¬4096 ∣ s) :
    OnPages s n ⟨e - w, w⟩ := by
  have hdvd' : w ∣ e - w := Nat.dvd_sub hdvd (Nat.dvd_refl w)
  rcases Nat.lt_or_eq_of_le hse with hlt | rfl
  · -- the last byte of the range that is below `e`
    have hmeet : OnPage s n (min e (s + n) - 1) := onPage_of_mem (by omega) (by omega)
    exact onPages_block hw hdvd' (by omega) (by omega) hmeet
  · exact onPages_block hw hdvd' (by omega) (by omega) (onPage_pred (hpage rfl) hn)

theorem memrchrBlocksLoads_onPages (hV : 0 < V) (hpage : V ∣ 4096) (hs : 0 < s) (hn : 0 < n) :
    ∀ (fuel e : Nat), V ∣ e → e ≤ s + n →
    (4096 ∣ s → ∃ i, s + i < e ∧ mem (s + i) = c) →
    Always (OnPages s n) (memrchrBlocksLoads V mem s c fuel e)
  | 0, e, _, _, _ => always_fail _
  | fuel + 1, e, hdvd, hen, hfound => by
      rw [memrchrBlocksLoads]
      refine always_ite (fun hes => ?_) fun _ => always_pure _
      have hVe : V ≤ e := Nat.le_of_dvd (by omega) hdvd
      have hload : OnPages s n ⟨e - V, V⟩ := by
        refine onPages_below hpage hdvd hVe hV hn hes (by omega) ?_
        rintro rfl hs4
        obtain ⟨i, hi, -⟩ := hfound hs4
        omega
      refine (always_loadVec hload).bind_of_result (loadVec_result _ _ _) ?_
      refine always_ite (fun _ => always_pure _) fun h0 => ?_
      have hmiss := cmpeq8Mask_eq_zero.mp (not_not.mp h0)
      refine memrchrBlocksLoads_onPages hV hpage hs hn fuel (e - V)
        (Nat.dvd_sub hdvd (Nat.dvd_refl V)) (by omega) fun hs4 => ?_
      obtain ⟨i, hi, hic⟩ := hfound hs4
      refine ⟨i, ?_, hic⟩
      by_contra hge
      refine hmiss (s + i - (e - V)) (by omega) ?_
      rw [loadu, setone8, show e - V + (s + i - (e - V)) = s + i by omega, hic]

/-- Through a whole range without a hit down to the block below it. -/
theorem memrchrBlocksLoads_below (hV : 0 < V) (hVs : V ∣ s)
    (hmiss : ∀ i < n, mem (s + i) ≠ c) : ∀ (fuel e : Nat), V ∣ e → s ≤ e → e ≤ s + n →
    e < s + fuel → ⟨s - V, V⟩ ∈ (memrchrBlocksLoads V mem s c fuel e).events
  | 0, e, _, hse, _, hf => by omega
  | fuel + 1, e, hdvd, hse, hen, hf => by
      rw [memrchrBlocksLoads, if_pos hse]
      rcases Nat.lt_or_eq_of_le hse with hlt | rfl
      · have hblock : V ≤ e - s := Nat.le_of_dvd (by omega) (Nat.dvd_sub hdvd hVs)
        have h0 : cmpeq8Mask V (loadu mem (e - V)) (setone8 c) = 0#V := by
          refine cmpeq8Mask_eq_zero.mpr fun i hi => ?_
          have := hmiss (e - V + i - s) (by omega)
          rwa [show s + (e - V + i - s) = e - V + i by omega] at this
        refine mem_events_bind_right (loadVec_result V mem (e - V)) ?_
        simp only [h0, ne_eq, not_true_eq_false, if_false]
        exact memrchrBlocksLoads_below hV hVs hmiss fuel (e - V)
          (Nat.dvd_sub hdvd (Nat.dvd_refl V)) (by omega) (by omega) (by omega)
      · exact mem_events_bind_left (List.mem_singleton.mpr rfl)

/-- The vectors leave the pages of the range exactly when it begins a page
and has no hit. -/
theorem simdMemrchrLoads_iff (hV : 0 < V) (hpage : V ∣ 4096) (hs : 0 < s) (hn : 0 < n) :
    Always (OnPages s n) (simdMemrchrLoads V mem s c n) ↔
      (4096 ∣ s → ∃ i < n, mem (s + i) = c) := by
  obtain ⟨hdvd, hle, hlt⟩ := alignUp_spec hV (s + n)
  have hVe : V ≤ alignUp (s + n) V := Nat.le_of_dvd (by omega) hdvd
  have hzero := @lastMask_eq_zero mem c V (s + n) (alignUp (s + n) V) hle hVe
  rw [simdMemrchrLoads, if_neg (by omega)]
  simp only
  generalize alignUp (s + n) V = e at *
  have hdvd' : V ∣ e - V := Nat.dvd_sub hdvd (Nat.dvd_refl V)
  constructor
  · intro hall hs4
    by_contra hnone
    have hmiss : ∀ i < n, mem (s + i) ≠ c := fun i hi hic => hnone ⟨i, hi, hic⟩
    have hVs : V ∣ s := hpage.trans hs4
    have hblock : V ≤ e - s := Nat.le_of_dvd (by omega) (Nat.dvd_sub hdvd hVs)
    have h0 := hzero.mpr fun x hx hxn => by
      have := hmiss (x - s) (by omega)
      rwa [show s + (x - s) = x by omega] at this
    have hVs' : V ≤ s := Nat.le_of_dvd hs hVs
    have hbelow := hall ⟨s - V, V⟩ (by
      refine mem_events_bind_right (loadVec_result V mem (e - V)) ?_
      simp only [h0, ne_eq, not_true_eq_false, if_false]
      exact memrchrBlocksLoads_below hV hVs hmiss (n + 1) (e - V) hdvd' (by omega) (by omega)
        (by omega))
    exact not_onPage_of_lt hs4 (show s - V + 0 < s by omega) (hbelow 0 hV)
  · intro hfound
    have hload : OnPages s n ⟨e - V, V⟩ :=
      onPages_below hpage hdvd hVe hV hn (by omega) (by omega) fun h => by omega
    refine (always_loadVec hload).bind_of_result (loadVec_result _ _ _) ?_
    refine always_ite (fun _ => always_pure _) fun h0 => ?_
    have hmiss := hzero.mp (not_not.mp h0)
    refine memrchrBlocksLoads_onPages hV hpage hs hn (n + 1) (e - V) hdvd' (by omega) fun hs4 => ?_
    obtain ⟨i, hi, hic⟩ := hfound hs4
    refine ⟨i, ?_, hic⟩
    by_contra hge
    exact hmiss (s + i) (by omega) (by omega) hic

/-- The byte loop stays inside, and stops at the first word boundary it
meets. -/
theorem memrchrAlignLoads_onPages : ∀ m ≤ n, Always (OnPages s n) (memrchrAlignLoads mem s c m)
  | 0, _ => by
      rw [memrchrAlignLoads]
      exact always_ite (fun _ => always_pure _) fun _ => always_pure _
  | m + 1, hm => by
      rw [memrchrAlignLoads]
      refine always_ite (fun _ => ?_) fun _ => always_pure _
      refine (always_loadByte (onPages_of_inside (by omega) (by omega))).bind fun x _ => ?_
      exact always_ite (fun _ => always_pure _) fun _ =>
        memrchrAlignLoads_onPages m (by omega)

theorem memrchrBytesLoads_onPages : ∀ m ≤ n, Always (OnPages s n) (memrchrBytesLoads mem s c m)
  | 0, _ => always_pure _
  | m + 1, hm => by
      rw [memrchrBytesLoads]
      refine (always_loadByte (onPages_of_inside (by omega) (by omega))).bind fun x _ => ?_
      exact always_ite (fun _ => always_pure _) fun _ =>
        memrchrBytesLoads_onPages m (by omega)

theorem memrchrAlign_boundary : ∀ {n m : Nat}, memrchrAlign mem s c n = .inr m → (s + m) % 8 = 0
  | 0, m, h => by
      rw [memrchrAlign] at h
      split at h
      · cases h
      · cases h
        omega
  | n + 1, m, h => by
      rw [memrchrAlign] at h
      split at h
      · split at h
        · cases h
        · exact memrchrAlign_boundary h
      · cases h
        omega

theorem memrchrAlign_of_miss (hs8 : s % 8 = 0) : ∀ {n : Nat}, (∀ i < n, mem (s + i) ≠ c) →
    memrchrAlign mem s c n = .inr (n - n % 8)
  | 0, _ => by rw [memrchrAlign, if_neg (by omega)]
  | n + 1, hmiss => by
      rw [memrchrAlign]
      by_cases h8 : (s + (n + 1)) % 8 ≠ 0
      · rw [if_pos h8, if_neg (hmiss n (Nat.lt_succ_self n)),
          memrchrAlign_of_miss hs8 fun i hi => hmiss i (by omega)]
        congr 1
        omega
      · rw [if_neg h8]
        congr 1
        omega

/-- The words: the last one loaded is below the bytes left. -/
theorem memrchrWordsLoads_onPages (hs : 0 < s) (hn : 0 < n) (m : Nat) : ∀ w : UInt64,
    m ≤ n → (s + m) % 8 = 0 → (8 ≤ m → w = leWord fun i => mem (s + m - 8 + i)) →
    (4096 ∣ s → ∃ i < m, mem (s + i) = c) →
    Always (OnPages s n) (memrchrWordsLoads mem s (ones * c.toUInt64) m w) := by
  induction m using Nat.strong_induction_on with
  | _ m ih =>
      intro w hmn hdvd hw hfound
      rcases Nat.lt_or_ge m 8 with hlt | hge
      · rw [memrchrWordsLoads]
        · exact always_pure _
        · rintro k rfl
          omega
      · obtain ⟨k, rfl⟩ : ∃ k, m = k + 8 := ⟨m - 8, by omega⟩
        rw [Nat.add_sub_assoc hge, Nat.add_sub_cancel] at hw
        rw [hw hge, memrchrWordsLoads]
        refine always_ite (fun hz => ?_) fun _ => always_pure _
        rw [Bool.not_eq_true'] at hz
        have hfound' : 4096 ∣ s → ∃ i < k, mem (s + i) = c := by
          intro hs4
          obtain ⟨i, hi, hic⟩ := hfound hs4
          refine ⟨i, ?_, hic⟩
          by_contra hge'
          refine ne_of_hasZero_xor hz (show i - k < 8 by omega) ?_
          rwa [show s + k + (i - k) = s + i by omega]
        have hload : OnPages s n ⟨s + k - 8, 8⟩ := by
          refine onPages_below ⟨512, rfl⟩ (Nat.dvd_of_mod_eq_zero (by omega)) (by omega) (by omega)
            hn (by omega) (by omega) ?_
          intro heq hs4
          obtain ⟨i, hi, -⟩ := hfound' hs4
          omega
        refine (always_loadWord hload).bind fun w' hw' => ?_
        rw [loadWord_result, Except.ok.injEq] at hw'
        exact ih k (by omega) w' (by omega) (by omega) (fun _ => hw'.symm) hfound'

/-- Through words without a hit down to the word below the range. -/
theorem memrchrWordsLoads_below (hs8 : s % 8 = 0) (hmiss : ∀ i < n, mem (s + i) ≠ c) (m : Nat) :
    ∀ w : UInt64, m ≤ n → (s + m) % 8 = 0 → 8 ≤ m →
    (w = leWord fun i => mem (s + m - 8 + i)) →
    ⟨s - 8, 8⟩ ∈ (memrchrWordsLoads mem s (ones * c.toUInt64) m w).events := by
  induction m using Nat.strong_induction_on with
  | _ m ih =>
      intro w hmn hdvd hge hw
      obtain ⟨k, rfl⟩ : ∃ k, m = k + 8 := ⟨m - 8, by omega⟩
      rw [Nat.add_sub_assoc hge, Nat.add_sub_cancel] at hw
      have hz : (!hasZero (w ^^^ (ones * c.toUInt64))) = true := by
        rw [hw, leWord_xor, hasZero_eq_false]
        · rfl
        · intro i hi hxor
          refine hmiss (k + i) (by omega) ?_
          rw [← Nat.add_assoc]
          exact UInt8.xor_eq_zero_iff.mp hxor
      rw [memrchrWordsLoads, if_pos hz]
      by_cases hk : k = 0
      · subst hk
        exact mem_events_bind_left (List.mem_singleton.mpr rfl)
      · refine mem_events_bind_right (loadWord_result mem (s + k - 8)) ?_
        exact ih k (by omega) _ (by omega) (by omega) (by omega) rfl

/-- The words leave the pages of the range exactly when it begins a page,
holds a whole word and has no hit. -/
theorem memrchrMuslLoads_iff (cfg : Build) (hs : 0 < s) (hn : 0 < n) :
    Always (OnPages s n) (memrchrMuslLoads cfg mem s c n) ↔
      (cfg.haveAttrMayAlias = true → 8 ≤ n → 4096 ∣ s → ∃ i < n, mem (s + i) = c) := by
  rw [memrchrMuslLoads]
  by_cases hcfg : cfg.haveAttrMayAlias = true
  · rw [if_pos hcfg]
    constructor
    · intro hall _ hn8 hs4
      by_contra hnone
      have hmiss : ∀ i < n, mem (s + i) ≠ c := fun i hi hic => hnone ⟨i, hi, hic⟩
      have hs8 : s % 8 = 0 := by omega
      have hlast := hmiss (n - n % 8 - 1) (by omega)
      rw [show s + (n - n % 8 - 1) = s + (n - n % 8) - 1 by omega] at hlast
      have hbelow := hall ⟨s - 8, 8⟩ (by
        refine mem_events_bind_right (memrchrAlignLoads_result n) ?_
        rw [memrchrAlign_of_miss hs8 hmiss]
        simp only [show n - n % 8 ≥ 8 by omega, if_true]
        refine mem_events_bind_right (loadByte_result mem (s + (n - n % 8) - 1)) ?_
        rw [if_pos hlast]
        refine mem_events_bind_right (loadWord_result mem (s + (n - n % 8) - 8)) ?_
        exact mem_events_bind_left
          (memrchrWordsLoads_below hs8 hmiss _ _ (by omega) (by omega) (by omega) rfl))
      exact not_onPage_of_lt hs4 (show s - 8 + 0 < s by omega) (hbelow 0 (show 0 < 8 by omega))
    · intro hfound
      refine (memrchrAlignLoads_onPages n (Nat.le_refl n)).bind fun res hres => ?_
      rw [memrchrAlignLoads_result, Except.ok.injEq] at hres
      have hspec := @memrchrAlign_spec mem s c n
      cases res with
      | inl r => exact always_pure _
      | inr m =>
          have hdvd := memrchrAlign_boundary hres
          rw [hres] at hspec
          obtain ⟨hmn, hmiss⟩ := hspec
          simp only
          refine always_ite (fun h8 => ?_) fun _ => memrchrBytesLoads_onPages m hmn
          refine (always_loadByte (onPages_of_inside (by omega) (by omega))).bind fun x _ => ?_
          refine always_ite (fun _ => ?_) fun _ => memrchrBytesLoads_onPages m hmn
          refine (always_loadWord (onPages_of_inside (by omega) (by omega))).bind fun w hw => ?_
          rw [loadWord_result, Except.ok.injEq] at hw
          have hwords := @memrchrWordsLoads_onPages mem s n c hs hn m w hmn hdvd
            (fun _ => hw.symm) fun hs4 => by
              obtain ⟨i, hi, hic⟩ := hfound hcfg (by omega) hs4
              refine ⟨i, ?_, hic⟩
              by_contra hge
              exact hmiss i (by omega) hi hic
          refine hwords.bind fun k hk => memrchrBytesLoads_onPages k ?_
          rw [memrchrWordsLoads_result _ m w fun _ => hw.symm, Except.ok.injEq] at hk
          have := (memrchrWords_spec mem s c m).1
          omega
  · rw [if_neg hcfg]
    exact iff_of_true (memrchrBytesLoads_onPages n (Nat.le_refl n)) fun h => absurd h hcfg

end Memrchr

/-! ## Forward -/

section Forward

variable {V : Nat} {mem : Mem} {s n : Nat} {c : UInt8}

theorem memcasechrBlocksLoads_onPages (hpage : V ∣ 4096) (hV : 0 < V) : ∀ (fuel p : Nat),
    V ∣ p → s ≤ p → Always (OnPages s n) (memcasechrBlocksLoads V mem c (s + n) fuel p)
  | 0, p, _, _ => always_fail _
  | fuel + 1, p, hdvd, hsp => by
      rw [memcasechrBlocksLoads]
      refine always_ite (fun hlt => ?_) fun _ => always_pure _
      have hload : OnPages s n ⟨p, V⟩ :=
        onPages_block hpage hdvd (Nat.le_refl p) (by omega) (onPage_of_mem hsp hlt)
      refine (always_loadVec hload).bind fun sv _ => ?_
      exact always_ite (fun _ => always_pure _) fun _ =>
        memcasechrBlocksLoads_onPages hpage hV fuel (p + V)
          (Nat.dvd_add hdvd (Nat.dvd_refl V)) (by omega)

/-- The aligned block around an address. -/
theorem onPages_around (hpage : V ∣ 4096) (hV : 0 < V) {a : Nat} (ha : OnPage s n a) :
    V ∣ a - (a - alignDown a V) ∧ a < a - (a - alignDown a V) + V ∧
      OnPages s n ⟨a - (a - alignDown a V), V⟩ := by
  have hle := Nat.mod_le a V
  have hlt := Nat.mod_lt a hV
  have hbase : a - (a - alignDown a V) = a - a % V := by
    rw [alignDown]
    omega
  have hdvd : V ∣ a - a % V := Nat.dvd_sub_mod a
  rw [hbase]
  exact ⟨hdvd, by omega, onPages_block hpage hdvd (Nat.sub_le a _) (by omega) ha⟩

theorem simdMemcasechrLoads_onPages (hpage : V ∣ 4096) (hV : 0 < V) :
    Always (OnPages s n) (simdMemcasechrLoads V mem s c n) := by
  rw [simdMemcasechrLoads]
  refine always_ite (fun _ => always_pure _) fun hn => ?_
  obtain ⟨hdvd, hlt, hload⟩ := onPages_around hpage hV
    (onPage_of_mem (s := s) (n := n) (Nat.le_refl s) (by omega))
  refine (always_loadVec hload).bind fun sv _ => ?_
  exact always_ite (fun _ => always_pure _) fun _ =>
    memcasechrBlocksLoads_onPages hpage hV (n + 1) _ (Nat.dvd_add hdvd (Nat.dvd_refl V))
      (by omega)

/-- Blocks without the terminator lie in front of it. -/
theorem chrnulBlocksLoads_onPages {cmp : Vec → BitVec V} {stop : UInt8 → Prop} {k : Nat}
    (hpage : V ∣ 4096) (hV : 0 < V)
    (hcmp : ∀ p i, (cmp (loadu mem p)).getLsbD i = true ↔ i < V ∧ stop (mem (p + i)))
    (h : FirstAt stop mem s k) (hk : k < n) : ∀ (fuel j : Nat), V ∣ s + j → j ≤ k →
    Always (OnPages s n) (chrnulBlocksLoads cmp mem fuel (s + j))
  | 0, j, _, _ => always_fail _
  | fuel + 1, j, hdvd, hj => by
      rw [chrnulBlocksLoads]
      have hload : OnPages s n ⟨s + j, V⟩ :=
        onPages_block hpage hdvd (Nat.le_refl _) (by omega)
          (onPage_of_mem (Nat.le_add_right s j) (by omega))
      refine (always_loadVec hload).bind_of_result (loadVec_result _ _ _) ?_
      refine always_ite (fun _ => always_pure _) fun h0 => ?_
      have hle := h.le_of_miss hj (none_of_mask_zero stop (hcmp _) (not_not.mp h0))
      rw [Nat.add_assoc]
      refine chrnulBlocksLoads_onPages hpage hV hcmp h hk fuel (j + V) ?_ hle
      rw [← Nat.add_assoc]
      exact Nat.dvd_add hdvd (Nat.dvd_refl V)

theorem simdChrnulLoads_onPages {cmp : Vec → BitVec V} {stop : UInt8 → Prop} {k : Nat}
    (hpage : V ∣ 4096) (hV : 0 < V)
    (hcmp : ∀ p i, (cmp (loadu mem p)).getLsbD i = true ↔ i < V ∧ stop (mem (p + i)))
    (h : FirstAt stop mem s k) (hk : k < n) :
    Always (OnPages s n) (simdChrnulLoads cmp mem s) := by
  rw [simdChrnulLoads]
  obtain ⟨hdvd, hlt, hload⟩ := onPages_around hpage hV
    (onPage_of_mem (s := s) (n := n) (Nat.le_refl s) (by omega))
  obtain ⟨hoff, hoffs, hfirst⟩ := @mask_first V s hV mem stop _ hcmp
  refine (always_loadVec hload).bind_of_result (loadVec_result _ _ _) ?_
  refine always_ite (fun _ => always_pure _) fun h0 => ?_
  have hle := h.le_of_miss (Nat.zero_le k) (none_of_mask_zero stop hfirst (not_not.mp h0))
  have hnext : s - (s - alignDown s V) + V = s + (V - (s - alignDown s V)) := by omega
  have hdvd' := Nat.dvd_add hdvd (Nat.dvd_refl V)
  rw [hnext] at hdvd' ⊢
  exact chrnulBlocksLoads_onPages hpage hV hcmp h hk (sizeMax + 1) _ hdvd' (by omega)

variable {l : Bytes}

theorem simdStrchrnulLoads_onPages (hpage : V ∣ 4096) (hV : 0 < V) (h : CStr mem s l) :
    Always (OnPages s (l.length + 1)) (simdStrchrnulLoads V mem s c) := by
  obtain ⟨k, hk, hst⟩ := h.firstAt id c
  exact simdChrnulLoads_onPages hpage hV (@getLsbD_chrNulMask V mem c) hst (by omega)

theorem simdStrcasechrnulLoads_onPages (hpage : V ∣ 4096) (hV : 0 < V) (h : CStr mem s l) :
    Always (OnPages s (l.length + 1)) (simdStrcasechrnulLoads V mem s c) := by
  obtain ⟨k, hk, hst⟩ := h.firstAt tolower c
  have hmask : ∀ p i, (caseNulMask V mem c p).getLsbD i = true ↔
      i < V ∧ StopFor tolower c (mem (p + i)) := getLsbD_caseNulMask
  exact simdChrnulLoads_onPages hpage hV hmask hst (by omega)

end Forward

end Jstr
