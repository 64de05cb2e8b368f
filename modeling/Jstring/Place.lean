import Jstring.Insert

/-!
# Placing a string over another

`jstr_place_len`, `jstr_placeafterchr_len` and `jstr_placeafter_len` of
`include/replace.h`. When the string has to get longer its capacity is
grown to what it will hold, the terminator not counted; and the two
callers subtract one past the occurrence where they should add.

- `placeLen_iff`: when the call does what it is for, and with it what
  is asked of the callers;
- `places_iff`: the three functions.
-/

namespace Jstr

open Words

/-! ## The functions -/

/-- `jstr_place_len_unsafe`. -/
def placeLenUnsafe (b : Blk) (at' : Nat) (src : Bytes) : Run Blk := b.write (b.addr + at') src

/-- The gap between the old end and `at'`, zeroed. -/
def zeroGap (b : Blk) (oldSz at' : Nat) : Run Blk :=
  if at' > oldSz then b.write (b.addr + oldSz) (List.replicate (at' - oldSz) 0) else .ok b

/-- `jstr_place_len` once the capacity is grown: `sz` is the new size. -/
def placeGrown (at' : Nat) (src : Bytes) (oldSz sz : Nat) (j : JstrTy) : Run (RetTy × JstrTy) := do
  let b ← j.deref
  let b ← b.write (b.addr + sz) [0]
  let b ← zeroGap b oldSz at'
  let b ← placeLenUnsafe b at' src
  .ok (.succ, { j with data := some b, size := sz })

/-- `jstr_place_len`. -/
def placeLen (al : Alloc) (j : JstrTy) (at' : Nat) (src : Bytes) : Run (RetTy × JstrTy) :=
  let oldSz := j.size
  let sz := addSz at' src.length
  if sz > j.size then orErr (reservealways al j sz) (placeGrown at' src oldSz sz)
  else do
    let b ← j.deref
    let b ← placeLenUnsafe b at' src
    .ok (.succ, { j with data := some b })

/-- `jstr_placeafterchr_len`. -/
def placeafterchrLen (env : Mem) (al : Alloc) (j : JstrTy) (c : UInt8) (src : Bytes) :
    Run (RetTy × JstrTy) :=
  match memchr (j.mem env) j.ptr c j.size with
  | some p => placeLen al j (subSz p (j.ptr + 1)) src
  | none => .ok (.succ, j)

/-- `jstr_placeafter_len`. -/
def placeafterLen (cfg : Build) (env : Mem) (al : Alloc) (j : JstrTy) (find findLen : Nat)
    (src : Bytes) : Run (RetTy × JstrTy) :=
  if findLen = 1 then placeafterchrLen env al j (env find) src
  else if findLen = 0 then .ok (.succ, j)
  else do
    match ← memmem cfg (j.mem env) j.ptr j.size find findLen with
    | some p => placeLen al j (subSz p (j.ptr + findLen)) src
    | none => .ok (.succ, j)

/-! ## What they leave -/

/-- `t` with `src` written over it from `at'` on, behind zeros if `t` ends
before. -/
def placed (t : Bytes) (at' : Nat) (src : Bytes) : Bytes :=
  t.take at' ++ List.replicate (at' - t.length) 0 ++ src ++ t.drop (at' + src.length)

/-- When `n` bytes are placed at `at'` in the block: the string is long
enough, or it is made longer and the terminator is inside, too, of a
capacity that is granted. What is placed has `Q`. -/
def PlaceMeets (al : Alloc) (j : JstrTy) (at' n : Nat) (Q : Prop) : Prop :=
  if addSz at' n > j.size then ∀ cap tmp, GrowsTo al j (addSz at' n) cap tmp → at' + n < cap ∧ Q
  else at' + n ≤ j.size ∧ Q

section Place

variable {cfg : Build} {env : Mem} {al : Alloc} {j : JstrTy} {t src l : Bytes} {at' find : Nat}

theorem length_placed (t : Bytes) (at' : Nat) (src : Bytes) :
    (placed t at' src).length = max t.length (at' + src.length) := by
  simp only [placed, List.length_append, List.length_take, List.length_replicate,
    List.length_drop]
  omega

/-- Inside the string only the bytes from `at'` on are others. -/
theorem getElem?_placed (h : at' + src.length ≤ t.length) (i : Nat) :
    (placed t at' src)[i]?
      = if at' ≤ i ∧ i < at' + src.length then src[i - at']? else t[i]? := by
  have htake : (t.take at').length = at' := by
    rw [List.length_take]
    omega
  rw [placed, Nat.sub_eq_zero_of_le (by omega), List.replicate_zero, List.append_nil]
  rcases Nat.lt_or_ge i at' with hlt | hge
  · rw [if_neg (by omega), List.append_assoc, List.getElem?_append_left (by omega),
      List.getElem?_take_of_lt hlt]
  · rcases Nat.lt_or_ge i (at' + src.length) with hin | hout
    · rw [if_pos ⟨hge, hin⟩, List.getElem?_append_left (by rw [List.length_append]; omega),
        List.getElem?_append_right (by omega), htake]
    · have hlen : (t.take at' ++ src).length = at' + src.length := by
        rw [List.length_append, htake]
      rw [if_neg (by omega), List.getElem?_append_right (by omega), hlen, List.getElem?_drop]
      congr 1
      omega

theorem placed_of_le (h : at' ≤ t.length) :
    placed t at' src = t.take at' ++ src ++ t.drop (at' + src.length) := by
  rw [placed, Nat.sub_eq_zero_of_le h, List.replicate_zero, List.append_nil]

/-- Overwriting inside the string. -/
theorem placeLen_inside (hs : Str j t) (hle : at' + src.length ≤ t.length)
    (hfit : j.size + 1 ≤ sizeMax) :
    ∃ j', placeLen al j at' src = .ok (.succ, j') ∧ Str j' (placed t at' src) := by
  obtain ⟨b, hd, hb, hsz, hat⟩ := hs
  have hadd : addSz at' src.length = at' + src.length := addSz_eq (by omega)
  have hin := hat.inRange.2
  have htake : (t.take at').length = at' := by
    rw [List.length_take]
    omega
  rw [List.length_append, List.length_singleton] at hin
  have hsplit : t ++ [0] = t.take at' ++ (t.drop at').take src.length
      ++ (t.drop (at' + src.length) ++ [0]) := by
    rw [← List.drop_drop, List.append_assoc, ← List.append_assoc (List.take _ (List.drop at' t)),
      List.take_append_drop, ← List.append_assoc, List.take_append_drop]
  have hput := hat
  rw [hsplit] at hput
  have hput := hput.put_mid (show src.length = ((t.drop at').take src.length).length by
    rw [List.length_take, List.length_drop]
    omega)
  rw [htake] at hput
  rw [placeLen, hsz, hadd, if_neg (by omega)]
  simp only [JstrTy.deref, hd, bind, Except.bind, placeLenUnsafe,
    Blk.write_eq (show b.InRange (b.addr + at') src.length from ⟨by omega, by omega⟩)]
  refine ⟨_, rfl, _, rfl, by rw [Memory.Block.put_size, hb], ?_, ?_⟩
  · show t.length = _
    rw [length_placed]
    omega
  · rw [placed_of_le (by omega), Memory.Block.put_addr, List.append_assoc]
    exact hput

theorem zeroGap_eq {b : Blk} (h : at' ≤ b.size) :
    zeroGap b t.length at'
      = .ok (b.put (b.addr + t.length) (List.replicate (at' - t.length) 0)) := by
  rw [zeroGap]
  by_cases hgap : at' > t.length
  · rw [if_pos hgap, Blk.write_eq ⟨Nat.le_add_right _ _, by rw [List.length_replicate]; omega⟩]
  · rw [if_neg hgap, Nat.sub_eq_zero_of_le (Nat.le_of_not_lt hgap), List.replicate_zero,
      Blk.put_nil]

/-- The block once the terminator, the gap and `src` are written. -/
def placedBlk (b : Blk) (t : Bytes) (at' : Nat) (src : Bytes) : Blk :=
  ((b.put (b.addr + (at' + src.length)) [0]).put (b.addr + t.length)
    (List.replicate (at' - t.length) 0)).put (b.addr + at') src

theorem placedBlk_at {b : Blk} (hat : b.At b.addr t) (hlt : t.length < at' + src.length)
    (hroom : at' + src.length < b.size) :
    (placedBlk b t at' src).At b.addr (placed t at' src ++ [0]) := by
  have hnil : t.drop (at' + src.length) = [] := List.drop_eq_nil_of_le (by omega)
  have htake : (t.take at').length = min at' t.length := List.length_take
  have hgap : (List.replicate (at' - t.length) (0 : UInt8)).length = at' - t.length :=
    List.length_replicate
  rw [placed, hnil, List.append_nil, placedBlk, List.append_assoc, List.append_assoc]
  generalize List.replicate (at' - t.length) (0 : UInt8) = gap at *
  refine Memory.Block.at_append.mpr ⟨?_, Memory.Block.at_append.mpr ⟨?_,
    Memory.Block.at_append.mpr ⟨?_, ?_⟩⟩⟩
  · refine (((hat.take at').put_of_disjoint (.inl ?_)).put_of_disjoint (.inl ?_)).put_of_disjoint
      (.inl ?_) <;> omega
  · rcases Nat.lt_or_ge t.length at' with hlong | hshort
    · rw [htake, Nat.min_eq_right (Nat.le_of_lt hlong)]
      refine (Memory.Block.at_put ⟨?_, ?_⟩).put_of_disjoint (.inl ?_)
      · rw [Memory.Block.put_addr]
        omega
      · rw [Memory.Block.put_addr, Memory.Block.put_size]
        omega
      · omega
    · obtain rfl := List.length_eq_zero_iff.mp (show gap.length = 0 by omega)
      refine Memory.Block.at_nil ⟨?_, ?_⟩
      · simp only [Memory.Block.put_addr]
        omega
      · simp only [Memory.Block.put_addr, Memory.Block.put_size]
        omega
  · rw [show b.addr + (t.take at').length + gap.length = b.addr + at' by omega]
    refine Memory.Block.at_put ⟨?_, ?_⟩
    · simp only [Memory.Block.put_addr]
      omega
    · simp only [Memory.Block.put_addr, Memory.Block.put_size]
      omega
  · rw [show b.addr + (t.take at').length + gap.length + src.length
      = b.addr + (at' + src.length) by omega]
    refine ((Memory.Block.at_put ⟨?_, ?_⟩).put_of_disjoint (.inr ?_)).put_of_disjoint (.inr ?_)
    · omega
    · rw [List.length_singleton]
      omega
    · omega
    · omega

theorem placeGrown_eq {b : Blk} (hd : j.data = some b) (hb : b.size = j.capacity)
    (hat : b.At b.addr t) (hlt : t.length < at' + src.length)
    (hroom : at' + src.length < b.size) :
    ∃ j', placeGrown at' src t.length (at' + src.length) j = .ok (.succ, j') ∧
      Str j' (placed t at' src) := by
  have hone : ([0] : Bytes).length = 1 := rfl
  have hw : b.write (b.addr + (at' + src.length)) [0]
      = .ok (b.put (b.addr + (at' + src.length)) [0]) :=
    Blk.write_eq ⟨by omega, by omega⟩
  have hgap := @zeroGap_eq t at' (b.put (b.addr + (at' + src.length)) [0]) (by
    rw [Memory.Block.put_size]
    omega)
  have hsrc := @Blk.write_eq ((b.put (b.addr + (at' + src.length)) [0]).put (b.addr + t.length)
    (List.replicate (at' - t.length) 0)) (b.addr + at') src ⟨by
      simp only [Memory.Block.put_addr]
      omega, by
      simp only [Memory.Block.put_addr, Memory.Block.put_size]
      omega⟩
  rw [Memory.Block.put_addr] at hgap
  rw [placeGrown]
  simp only [JstrTy.deref, hd, bind, Except.bind, hw, hgap, placeLenUnsafe,
    Memory.Block.put_addr, hsrc]
  refine ⟨_, rfl, placedBlk b t at' src, rfl, ?_, ?_, placedBlk_at hat hlt hroom⟩
  · simp only [placedBlk, Memory.Block.put_size, hb]
  · show at' + src.length = _
    rw [length_placed]
    omega

theorem zeroGap_cases (b : Blk) (oldSz at' : Nat) :
    zeroGap b oldSz at' = .error .bounds ∨
      ∃ b', zeroGap b oldSz at' = .ok b' ∧ b'.size = b.size := by
  rw [zeroGap]
  split
  · exact Blk.write_cases _ _ _
  · exact .inr ⟨b, rfl, rfl⟩

/-- A write that would end behind the block. -/
theorem write_bounds {b : Blk} {dst : Nat} (hne : l ≠ []) (hout : b.addr + b.size < dst + l.length) :
    b.write dst l = .error .bounds := by
  rw [Blk.write, if_neg hne, if_neg fun h => Nat.not_le.mpr hout h.2]

/-- With too little room one of the writes leaves the block. -/
theorem placeGrown_bounds {b : Blk} {oldSz : Nat} (hd : j.data = some b)
    (hroom : b.size ≤ at' + src.length) (hb : b.size ≤ sizeMax) (hat' : at' ≤ sizeMax) :
    placeGrown at' src oldSz (addSz at' src.length) j = .error .bounds := by
  rw [placeGrown]
  simp only [JstrTy.deref, hd, bind, Except.bind]
  by_cases hfit : at' + src.length ≤ sizeMax
  · rw [addSz_eq hfit, write_bounds (by decide) (show _ < _ + 1 by omega)]
  · -- the size wrapped, and is far from where `src` goes
    have hsrc : src ≠ [] := by
      rintro rfl
      exact hfit hat'
    rcases Blk.write_cases b (b.addr + addSz at' src.length) [0] with h₁ | ⟨b₁, h₁, hs₁⟩
    · rw [h₁]
    simp only [h₁]
    rcases zeroGap_cases b₁ oldSz at' with h₂ | ⟨b₂, h₂, hs₂⟩
    · rw [h₂]
    simp only [h₂, placeLenUnsafe]
    rw [write_bounds hsrc (by omega)]

theorem safe_succ_iff {j j' : JstrTy} {s s' : Bytes} (h : Str j' s) :
    Safe j (fun j' => Str j' s') (.ok (.succ, j')) ↔ s = s' :=
  ⟨fun h' => h.unique h', fun h' => h' ▸ h⟩

/-- Placing `src`: unless room is refused it is placed, and the terminator
with it, exactly when both are inside the block. -/
theorem placeLen_iff {s : Bytes} (hs : Str j t) (hcap : j.capacity ≤ sizeMax)
    (hat' : at' ≤ sizeMax) :
    Safe j (fun j' => Str j' s) (placeLen al j at' src) ↔
      PlaceMeets al j at' src.length (placed t at' src = s) := by
  obtain ⟨b, hd, hb, hsz, hat⟩ := hs
  have hin := hat.inRange.2
  rw [List.length_append, List.length_singleton] at hin
  rw [PlaceMeets]
  by_cases hgrow : addSz at' src.length > j.size
  · rw [placeLen, if_pos hgrow, if_pos hgrow]
    by_cases hex : ∃ cap tmp, GrowsTo al j (addSz at' src.length) cap tmp
    swap
    · exact iff_of_true (safe_refused (reservealways_refused hex))
        fun cap tmp h => absurd ⟨cap, tmp, h⟩ hex
    obtain ⟨cap, tmp, hg⟩ := hex
    have hmax := hg.le_sizeMax hcap
    have hbound : (∀ cap' tmp', GrowsTo al j (addSz at' src.length) cap' tmp' →
        at' + src.length < cap' ∧ placed t at' src = s) ↔
        at' + src.length < cap ∧ placed t at' src = s := by
      refine ⟨fun h => h cap tmp hg, fun h cap' tmp' hg' => ?_⟩
      rwa [← (hg.unique hg').1]
    rw [hbound, hg.reservealways_eq]
    simp only [orErr]
    by_cases hroom : at' + src.length < cap
    · have hadd : addSz at' src.length = at' + src.length := addSz_eq (by omega)
      rw [hadd, hsz] at hgrow
      obtain ⟨j', hrun, hstr⟩ := @placeGrown_eq { j with data := some tmp, capacity := cap } t src
        at' tmp rfl hg.size_eq (hg.keeps hd hb hat.left) hgrow (by rwa [hg.size_eq])
      rw [hsz] at hrun
      rw [hadd, hsz, hrun, safe_succ_iff hstr, and_iff_right hroom]
    · rw [placeGrown_bounds rfl (by rw [hg.size_eq]; omega) (by rwa [hg.size_eq]) hat']
      exact iff_of_false (not_safe_error (by decide)) fun h => hroom h.1
  · rw [if_neg hgrow]
    by_cases hle : at' + src.length ≤ t.length
    · obtain ⟨j', hrun, hstr⟩ := placeLen_inside ⟨b, hd, hb, hsz, hat⟩ hle
        (show j.size + 1 ≤ sizeMax by omega)
      rw [hrun, safe_succ_iff hstr, hsz, and_iff_right hle]
    · -- the size wrapped below the old one
      have hwrap : sizeMax < at' + src.length := by
        by_contra hfit
        rw [addSz_eq (Nat.le_of_not_lt hfit), hsz] at hgrow
        exact hle (Nat.le_of_not_lt hgrow)
      have hsrc : src ≠ [] := by
        rintro rfl
        exact absurd hat' (Nat.not_le.mpr hwrap)
      rw [placeLen, if_neg hgrow]
      simp only [JstrTy.deref, hd, bind, Except.bind, placeLenUnsafe]
      rw [write_bounds hsrc (by omega), hsz]
      exact iff_of_false (not_safe_error (by decide)) fun h => hle h.1

/-- `src` is placed right behind the first occurrence of `l`; nothing
happens without one. -/
def PlacesAfter (j : JstrTy) (t l src : Bytes) (r : Run (RetTy × JstrTy)) : Prop :=
  match firstOf l t with
  | none => r = .ok (.succ, j)
  | some k => Safe j (fun j' => Str j' (placed t (k + l.length) src)) r

/-- It makes no difference whether `src` is put at `lo` or `d` further on: both ends are inside
`t`, which has the part of `src` there that the other placement does not cover, and where both
do `src` repeats itself. -/
def Alike (t src : Bytes) (lo d : Nat) : Prop :=
  lo + d + src.length ≤ t.length ∧ ∀ i < src.length,
    (i < d → t[lo + i]? = src[i]?) ∧
    (if i + d < src.length then src[i + d]? = src[i]? else t[lo + d + i]? = src[i]?)

/-- The offsets are the same, or the nearer of them and the distance of the other make no
difference. -/
def NoMatter (t src : Bytes) (a b : Nat) : Prop :=
  a = b ∨ Alike t src (min a b) (max a b - min a b)

/-- The callers' offset: `l.length` below the occurrence at `k`, in `size_t`, instead of
`l.length` above it. -/
def PlaceAfterMeets (al : Alloc) (j : JstrTy) (t l src : Bytes) : Prop :=
  ∀ k, firstOf l t = some k → PlaceMeets al j (subSz k l.length) src.length
    (NoMatter t src (subSz k l.length) (k + l.length))

theorem placed_eq_iff {lo d : Nat} (hd : 0 < d) :
    placed t lo src = placed t (lo + d) src ↔ Alike t src lo d := by
  constructor
  · intro heq
    have hlen := congrArg List.length heq
    rw [length_placed, length_placed] at hlen
    have hfit : lo + d + src.length ≤ t.length := by omega
    refine ⟨hfit, fun i hi => ⟨fun hid => ?_, ?_⟩⟩
    · have := congrArg (fun l : Bytes => l[lo + i]?) heq
      simp only [getElem?_placed (show lo + src.length ≤ t.length by omega),
        getElem?_placed hfit] at this
      rw [if_pos (by omega), if_neg (by omega), Nat.add_sub_cancel_left] at this
      exact this.symm
    · have := congrArg (fun l : Bytes => l[lo + d + i]?) heq
      simp only [getElem?_placed (show lo + src.length ≤ t.length by omega),
        getElem?_placed hfit] at this
      rw [if_pos (show lo + d ≤ lo + d + i ∧ lo + d + i < lo + d + src.length by omega),
        Nat.add_sub_cancel_left] at this
      split
      · rw [if_pos (by omega), show lo + d + i - lo = i + d by omega] at this
        exact this
      · rw [if_neg (by omega)] at this
        exact this
  · rintro ⟨hfit, hbytes⟩
    refine List.ext_getElem? fun i => ?_
    rw [getElem?_placed (show lo + src.length ≤ t.length by omega), getElem?_placed hfit]
    by_cases hhigh : lo + d ≤ i ∧ i < lo + d + src.length
    · rw [if_pos hhigh]
      have hbyte := (hbytes (i - (lo + d)) (by omega)).2
      split
      · rw [if_pos (by omega), show i - (lo + d) + d = i - lo by omega] at hbyte
        exact hbyte
      · rw [if_neg (by omega), show lo + d + (i - (lo + d)) = i by omega] at hbyte
        exact hbyte
    · rw [if_neg hhigh]
      split
      · have hbyte := (hbytes (i - lo) (by omega)).1 (by omega)
        rw [show lo + (i - lo) = i by omega] at hbyte
        exact hbyte.symm
      · rfl

theorem placed_noMatter_iff {a b : Nat} :
    placed t a src = placed t b src ↔ NoMatter t src a b := by
  rw [NoMatter]
  rcases Nat.lt_trichotomy a b with hlt | rfl | hgt
  · rw [or_iff_right (Nat.ne_of_lt hlt), Nat.min_eq_left (Nat.le_of_lt hlt),
      Nat.max_eq_right (Nat.le_of_lt hlt), ← placed_eq_iff (Nat.sub_pos_of_lt hlt),
      Nat.add_sub_cancel' (Nat.le_of_lt hlt)]
  · exact iff_of_true rfl (.inl rfl)
  · rw [or_iff_right (Nat.ne_of_gt hgt), Nat.min_eq_right (Nat.le_of_lt hgt),
      Nat.max_eq_left (Nat.le_of_lt hgt), ← placed_eq_iff (Nat.sub_pos_of_lt hgt),
      Nat.add_sub_cancel' (Nat.le_of_lt hgt)]
    exact eq_comm

theorem subSz_add_left (s k n : Nat) : subSz (s + k) (s + n) = subSz k n := by
  rw [subSz, subSz]
  by_cases h : n ≤ k
  · rw [if_pos (Nat.add_le_add_left h s), if_pos h, Nat.add_sub_add_left]
  · rw [if_neg (by omega), if_neg h, Nat.add_sub_add_left]

theorem subSz_le {k n : Nat} (hk : k ≤ sizeMax) : subSz k n ≤ sizeMax := by
  simp only [sizeMax] at hk ⊢
  rw [subSz]
  split <;> omega

/-- What the two callers do with the position found. -/
theorem placeAt_iff (hs : Str j t) (hcap : j.capacity ≤ sizeMax) (hl : l ≠ []) :
    PlacesAfter j t l src (match (search l t).map (j.ptr + ·) with
      | some p => placeLen al j (subSz p (j.ptr + l.length)) src
      | none => .ok (.succ, j)) ↔ PlaceAfterMeets al j t l src := by
  rw [PlacesAfter, PlaceAfterMeets, firstOf, if_neg hl]
  cases hk : search l t with
  | none => exact iff_of_true rfl fun k h => by cases h
  | some k =>
      have hle := search_lt hk
      have hlt := hs.content.size_lt hcap
      rw [hs.content.size] at hlt
      simp only [Option.map_some]
      rw [subSz_add_left, placeLen_iff hs hcap (subSz_le (by omega)), placed_noMatter_iff]
      refine ⟨fun h k' hk' => ?_, fun h => h k rfl⟩
      cases hk'
      exact h

theorem placeafterchrLen_iff (hs : Str j t) (hcap : j.capacity ≤ sizeMax) (c : UInt8) :
    PlacesAfter j t [c] src (placeafterchrLen env al j c src) ↔
      PlaceAfterMeets al j t [c] src := by
  rw [placeafterchrLen, hs.content.memchr_eq]
  exact placeAt_iff hs hcap (List.cons_ne_nil c [])

theorem placeafterLen_iff (hs : Str j t) (hcap : j.capacity ≤ sizeMax)
    (hl : Beside env j find l) :
    PlacesAfter j t l src (placeafterLen cfg env al j find l.length src) ↔
      PlaceAfterMeets al j t l src := by
  rw [placeafterLen]
  by_cases h1 : l.length = 1
  · obtain ⟨c, rfl⟩ := List.length_eq_one_iff.mp h1
    rw [if_pos h1, memAt_head hl.1 rfl]
    exact placeafterchrLen_iff hs hcap c
  rw [if_neg h1]
  by_cases h0 : l.length = 0
  · rw [if_pos h0, PlacesAfter, PlaceAfterMeets, firstOf, if_pos (List.length_eq_zero_iff.mp h0)]
    exact iff_of_true rfl fun k h => by cases h
  · rw [if_neg h0, hs.content.memmem_eq hl]
    exact placeAt_iff hs hcap fun h => h0 (by rw [h]; rfl)

/-- The three calls do what they are for exactly when what is placed is
inside the block, the terminator with it; and, of the two callers, when the
text is such that the wrong offset does not show. -/
theorem places_iff (cfg : Build) (env : Mem) (al : Alloc) (src : Bytes) (hs : Str j t)
    (hcap : j.capacity ≤ sizeMax) :
    (∀ at' ≤ sizeMax,
        (Safe j (fun j' => Str j' (placed t at' src)) (placeLen al j at' src) ↔
          PlaceMeets al j at' src.length True)) ∧
      (∀ c, PlacesAfter j t [c] src (placeafterchrLen env al j c src) ↔
        PlaceAfterMeets al j t [c] src) ∧
      ∀ find l, Beside env j find l →
        (PlacesAfter j t l src (placeafterLen cfg env al j find l.length src) ↔
          PlaceAfterMeets al j t l src) := by
  refine ⟨fun at' hat' => ?_, placeafterchrLen_iff hs hcap, fun _ _ hl => placeafterLen_iff hs hcap hl⟩
  rw [placeLen_iff hs hcap hat', eq_self_iff_true]

/-- "xy" placed in "ab". -/
theorem places_iff_ab :
    (∀ at' ≤ sizeMax,
        (Safe ⟨some ⟨64, [97, 98, 0]⟩, 2, 3⟩ (fun j' => Str j' (placed [97, 98] at' [120, 121]))
            (placeLen (Alloc.filling 4096 0) ⟨some ⟨64, [97, 98, 0]⟩, 2, 3⟩ at' [120, 121]) ↔
          PlaceMeets (Alloc.filling 4096 0) ⟨some ⟨64, [97, 98, 0]⟩, 2, 3⟩ at' 2 True)) ∧
      (∀ c, PlacesAfter ⟨some ⟨64, [97, 98, 0]⟩, 2, 3⟩ [97, 98] [c] [120, 121]
          (placeafterchrLen (memOf []) (Alloc.filling 4096 0) ⟨some ⟨64, [97, 98, 0]⟩, 2, 3⟩ c
            [120, 121]) ↔
        PlaceAfterMeets (Alloc.filling 4096 0) ⟨some ⟨64, [97, 98, 0]⟩, 2, 3⟩ [97, 98] [c]
          [120, 121]) ∧
      ∀ find l, Beside (memOf []) ⟨some ⟨64, [97, 98, 0]⟩, 2, 3⟩ find l →
        (PlacesAfter ⟨some ⟨64, [97, 98, 0]⟩, 2, 3⟩ [97, 98] l [120, 121]
            (placeafterLen sse2Build (memOf []) (Alloc.filling 4096 0)
              ⟨some ⟨64, [97, 98, 0]⟩, 2, 3⟩ find l.length [120, 121]) ↔
          PlaceAfterMeets (Alloc.filling 4096 0) ⟨some ⟨64, [97, 98, 0]⟩, 2, 3⟩ [97, 98] l
            [120, 121]) := by
  have hs : Str ⟨some ⟨64, [97, 98, 0]⟩, 2, 3⟩ [97, 98] :=
    ⟨_, rfl, rfl, rfl, by decide, by decide⟩
  exact places_iff sse2Build (memOf []) (Alloc.filling 4096 0) [120, 121] hs (by decide)

/-- "a" placed at 23 in a block of 24 bytes: the terminator is behind it.
And "x" placed after the "b" of "ab" is placed before it. -/
theorem not_places :
    ¬Safe ⟨some ⟨64, List.replicate 24 0⟩, 0, 24⟩ (fun j' => Str j' (placed [] 23 [97]))
        (placeLen (Alloc.filling 64 0) ⟨some ⟨64, List.replicate 24 0⟩, 0, 24⟩ 23 [97]) ∧
      ¬PlacesAfter ⟨some ⟨64, [97, 98, 0, 0]⟩, 2, 4⟩ [97, 98] [98] [120]
        (placeafterchrLen (memOf []) (Alloc.filling 64 0) ⟨some ⟨64, [97, 98, 0, 0]⟩, 2, 4⟩ 98
          [120]) := by
  constructor
  · have hrun : placeLen (Alloc.filling 64 0) ⟨some ⟨64, List.replicate 24 0⟩, 0, 24⟩ 23 [97]
        = .error .bounds := rfl
    rw [hrun]
    exact not_safe_error (by decide)
  · have hrun : placeafterchrLen (memOf []) (Alloc.filling 64 0) ⟨some ⟨64, [97, 98, 0, 0]⟩, 2, 4⟩
        98 [120] = .ok (.succ, ⟨some ⟨64, [120, 98, 0, 0]⟩, 2, 4⟩) := rfl
    rw [hrun]
    rintro ⟨b, -, -, hsz, -⟩
    exact absurd hsz (by decide)

end Place

end Jstr
