import Jstring.Builder

/-!
# When the capacity can be grown

The loop of `jstr_reservealways` doubles in `size_t`, so that beyond 2 ^ 63
it need not get anywhere. Both reserve routines do what they are for
exactly when some doubling, as the word holds it, is large enough.

- `growCap_ok_iff`: when the loop ends;
- `reserves_iff`: the two routines;
- `GrowsTo`, `Granted`: the requests that are granted, for the calls that
  rest on one.
-/

namespace Jstr

/-- Some doubling of `c`, in `size_t`, is at least `n`. -/
def Doubles (c n : Nat) : Prop := ∃ k, n ≤ c * 2 ^ k % 18446744073709551616

/-- What the loop returns is one of the doublings. -/
theorem growCap_iterate {fuel c n r : Nat} (h : growCap fuel c n = .ok r) :
    ∃ k, r = (fun c => mulSz c growth)^[k] c := by
  induction fuel generalizing c with
  | zero => cases h
  | succ fuel ih =>
      rw [growCap] at h
      split at h
      · obtain ⟨k, hk⟩ := ih h
        exact ⟨k + 1, hk⟩
      · cases h
        exact ⟨0, rfl⟩

theorem mulSz_growth_iterate_of_le {c : Nat} (hc : c ≤ sizeMax) (k : Nat) :
    (fun c => mulSz c growth)^[k] c = c * 2 ^ k % 18446744073709551616 := by
  rw [mulSz_growth_iterate]
  split
  · rename_i h0
    subst h0
    simp only [sizeMax] at hc
    rw [Nat.pow_zero, Nat.mul_one, Nat.mod_eq_of_lt (by omega)]
  · rfl

theorem growCap_ok_iff {c n : Nat} (hc : c ≤ sizeMax) :
    (∃ r, growCap 65 c n = .ok r) ↔ Doubles c n := by
  constructor
  · rintro ⟨r, hr⟩
    obtain ⟨k, hk⟩ := growCap_iterate hr
    rw [mulSz_growth_iterate_of_le hc] at hk
    exact ⟨k, hk ▸ (growCap_spec hr).1⟩
  · rintro ⟨k, hk⟩
    rcases hr : growCap 65 c n with f | r
    · have hlt := (growCap_diverge hr k).2
      rw [mulSz_growth_iterate_of_le hc] at hlt
      omega
    · exact ⟨r, rfl⟩

/-- `j'` has room for `n` bytes: the capacity is that of the block, which is
the one there was or was asked of `al`, and the old bytes are in it. -/
structure Reserved (al : Alloc) (j : JstrTy) (n : Nat) (j' : JstrTy) : Prop where
  size : j'.size = j.size
  backed : Backed j'
  enough : n ≤ j'.capacity
  block : j' = j ∨ j'.data ≠ none ∧ al.realloc j.data j'.capacity = j'.data
  keeps : ∀ b, j.data = some b → ∃ b', j'.data = some b' ∧ ∀ l, b.At b.addr l → b'.At b'.addr l

/-- A reserve for `n` bytes returns: with room for them, or with an error
and `j` as it was when memory for them is refused. -/
def Reserves (al : Alloc) (j : JstrTy) (n : Nat) (r : Run (RetTy × JstrTy)) : Prop :=
  (∃ j', r = .ok (.succ, j') ∧ Reserved al j n j') ∨
    (r = .ok (.err, j) ∧ ∃ cap, n ≤ cap ∧ al.realloc j.data cap = none)

section Reserve

variable {al : Alloc} {j : JstrTy} {n : Nat}

theorem reservealways_reserves_iff (hb : Backed j) (hcap : j.capacity ≤ sizeMax) :
    Reserves al j n (reservealways al j n) ↔ Doubles (max j.capacity minCap) n := by
  rw [← growCap_ok_iff (Nat.max_le.mpr ⟨hcap, by decide⟩)]
  have hspec := @reservealways_spec al j hb n
  rw [reservealways] at hspec ⊢
  rcases hg : growCap 65 (max j.capacity minCap) n with f | cap
  · refine iff_of_false ?_ ?_
    · rintro (⟨j', h, -⟩ | ⟨h, -⟩) <;> cases h
    · rintro ⟨r, hr⟩
      cases hr
  · refine iff_of_true ?_ ⟨cap, rfl⟩
    rw [hg] at hspec
    simp only [bind, Except.bind] at hspec ⊢
    rcases hr : al.realloc j.data cap with _ | tmp
    · exact .inr ⟨rfl, cap, (growCap_spec hg).1, hr⟩
    · rw [hr] at hspec
      obtain ⟨hsize, -, hkeeps⟩ := hspec
      refine .inl ⟨_, rfl, hsize, al.size_eq hr, (growCap_spec hg).1, ?_, fun b hd => ?_⟩
      · exact .inr ⟨Option.some_ne_none tmp, hr⟩
      · exact ⟨tmp, rfl, (hkeeps b tmp hd rfl).2⟩

theorem reserve_reserves_iff (hb : Backed j) (hcap : j.capacity ≤ sizeMax) :
    Reserves al j n (reserve al j n) ↔
      n ≤ j.capacity ∨ Doubles (max j.capacity minCap) n := by
  rw [reserve]
  by_cases hle : n ≤ j.capacity
  · rw [if_pos hle]
    exact iff_of_true (.inl ⟨j, rfl, rfl, hb, hle, .inl rfl, fun b hd => ⟨b, hd, fun _ h => h⟩⟩)
      (.inl hle)
  · rw [if_neg hle, reservealways_reserves_iff hb hcap, or_iff_right hle]

/-- The reserve routines return, with the room asked for or the error of the
allocator, exactly when there is nothing to do or doubling gets there. -/
theorem reserves_iff (al : Alloc) (n : Nat) (hb : Backed j) (hcap : j.capacity ≤ sizeMax) :
    (Reserves al j n (reservealways al j n) ↔ Doubles (max j.capacity minCap) n) ∧
      (Reserves al j n (reserve al j n) ↔
        n ≤ j.capacity ∨ Doubles (max j.capacity minCap) n) :=
  ⟨reservealways_reserves_iff hb hcap, reserve_reserves_iff hb hcap⟩

/-- A string that is not allocated, 100 bytes asked for. -/
theorem reserves_iff_init :
    (Reserves (Alloc.filling 64 0) .init 100 (reservealways (Alloc.filling 64 0) .init 100) ↔
        Doubles (max 0 minCap) 100) ∧
      (Reserves (Alloc.filling 64 0) .init 100 (reserve (Alloc.filling 64 0) .init 100) ↔
        100 ≤ 0 ∨ Doubles (max 0 minCap) 100) :=
  @reserves_iff .init (Alloc.filling 64 0) 100 rfl (Nat.zero_le sizeMax)

/-- The doublings of 24 are 3 * 2 ^ 62 at most, and 0 in the end: all of the
address space is never reached. -/
theorem not_reserves_sizeMax :
    ¬Reserves (Alloc.filling 64 0) .init sizeMax (reserve (Alloc.filling 64 0) .init sizeMax) := by
  have hdiv : reserve (Alloc.filling 64 0) .init sizeMax = .error .diverge := rfl
  rintro (⟨j', h, -⟩ | ⟨h, -⟩)
  · rw [hdiv] at h
    cases h
  · rw [hdiv] at h
    cases h

/-! ## Granted requests -/

/-- Growing to `n` bytes takes `cap`, and the allocator answers with `tmp`. -/
def GrowsTo (al : Alloc) (j : JstrTy) (n cap : Nat) (tmp : Blk) : Prop :=
  growCap 65 (max j.capacity minCap) n = .ok cap ∧ al.realloc j.data cap = some tmp

/-- A reserve for `n` bytes has nothing to do, or can grow the block. -/
def Granted (al : Alloc) (j : JstrTy) (n : Nat) : Prop :=
  n ≤ j.capacity ∨ ∃ cap tmp, GrowsTo al j n cap tmp

variable {cap : Nat} {tmp : Blk}

theorem not_safe_error {P : JstrTy → Prop} {f : Fault} (h : f ≠ .diverge) :
    ¬Safe j P (.error f) := h

theorem safe_refused {P : JstrTy → Prop} {r : Run (RetTy × JstrTy)}
    {rest : JstrTy → Run (RetTy × JstrTy)} (h : r = .error .diverge ∨ r = .ok (.err, j)) :
    Safe j P (orErr r rest) := by
  rcases h with h | h <;> rw [h]
  · exact rfl
  · exact rfl

theorem GrowsTo.reservealways_eq (h : GrowsTo al j n cap tmp) :
    reservealways al j n = .ok (.succ, { j with data := some tmp, capacity := cap }) := by
  simp only [reservealways, h.1, h.2, bind, Except.bind]

theorem reservealways_refused (h : ¬∃ cap tmp, GrowsTo al j n cap tmp) :
    reservealways al j n = .error .diverge ∨ reservealways al j n = .ok (.err, j) := by
  rw [reservealways]
  rcases hg : growCap 65 (max j.capacity minCap) n with f | cap
  · rw [(growCap_diverge hg 0).1]
    exact .inl rfl
  · rcases hr : al.realloc j.data cap with _ | tmp
    · refine .inr ?_
      simp only [bind, Except.bind, hr]
    · exact absurd ⟨cap, tmp, hg, hr⟩ h

theorem reserve_refused (h : ¬Granted al j n) :
    reserve al j n = .error .diverge ∨ reserve al j n = .ok (.err, j) := by
  rw [Granted, not_or] at h
  rw [reserve, if_neg h.1]
  exact reservealways_refused h.2

theorem GrowsTo.le_sizeMax (h : GrowsTo al j n cap tmp) (hcap : j.capacity ≤ sizeMax) :
    cap ≤ sizeMax := by
  obtain ⟨k, hk⟩ := growCap_iterate h.1
  rw [mulSz_growth_iterate_of_le (Nat.max_le.mpr ⟨hcap, by decide⟩)] at hk
  simp only [sizeMax]
  omega

theorem GrowsTo.unique {cap' : Nat} {tmp' : Blk} (h : GrowsTo al j n cap tmp)
    (h' : GrowsTo al j n cap' tmp') : cap = cap' ∧ tmp = tmp' := by
  obtain ⟨hcap, htmp⟩ := h
  obtain ⟨hcap', htmp'⟩ := h'
  rw [hcap] at hcap'
  cases hcap'
  rw [htmp] at htmp'
  exact ⟨rfl, Option.some.inj htmp'⟩

theorem GrowsTo.le (h : GrowsTo al j n cap tmp) : n ≤ cap := (growCap_spec h.1).1

theorem GrowsTo.size_eq (h : GrowsTo al j n cap tmp) : tmp.size = cap := al.size_eq h.2

/-- What was in the block is in the new one. -/
theorem GrowsTo.keeps {b : Blk} {l : Bytes} (h : GrowsTo al j n cap tmp) (hd : j.data = some b)
    (hb : b.size = j.capacity) (hat : b.At b.addr l) : tmp.At tmp.addr l := by
  have hr := h.2
  rw [hd] at hr
  have hin := hat.inRange.2
  have hle := (growCap_spec h.1).2
  exact @Alloc.keeps_at al b tmp cap hr 0 l hat (by omega)

/-- A granted reserve: the record as it was, or with the new block. -/
theorem Granted.reserve_eq (h : Granted al j n) :
    ∃ j', reserve al j n = .ok (.succ, j') ∧ j'.capacity = capAfter j.capacity n ∧
      (j' = j ∧ n ≤ j.capacity ∨
        ∃ cap tmp, GrowsTo al j n cap tmp ∧ j' = { j with data := some tmp, capacity := cap }) := by
  rw [reserve, capAfter]
  by_cases hle : n ≤ j.capacity
  · rw [if_pos hle, if_pos hle]
    exact ⟨j, rfl, rfl, .inl ⟨rfl, hle⟩⟩
  · obtain ⟨cap, tmp, hg⟩ := h.resolve_left hle
    rw [if_neg hle, if_neg hle, hg.1]
    exact ⟨_, hg.reservealways_eq, rfl, .inr ⟨cap, tmp, hg, rfl⟩⟩

theorem Granted.le_capAfter (h : Granted al j n) : n ≤ capAfter j.capacity n := by
  rw [capAfter]
  split
  · assumption
  · rename_i hle
    obtain ⟨cap, tmp, hg⟩ := h.resolve_left hle
    rw [hg.1]
    exact hg.le

/-- The block there is after a granted reserve, with the content in it. -/
theorem Granted.content {t : Bytes} (h : Granted al j n) (hc : Content j t)
    (hn : j.size = 0 → 0 < n) (hcap : j.capacity ≤ sizeMax) :
    ∃ j' b, reserve al j n = .ok (.succ, j') ∧ j'.data = some b ∧ b.size = j'.capacity ∧
      j'.capacity = capAfter j.capacity n ∧ j'.size = t.length ∧ b.size ≤ sizeMax ∧
      b.At b.addr t := by
  obtain ⟨j', hr, hafter, hj'⟩ := h.reserve_eq
  rcases hj' with ⟨rfl, hle⟩ | ⟨cap, tmp, hg, rfl⟩
  · rcases hc with ⟨rfl, -⟩ | ⟨b, hb⟩
    · exact absurd hle (Nat.not_le.mpr (hn rfl))
    · exact ⟨j', b, hr, hb.data, hb.backed, hafter, hb.size, by rwa [hb.backed], hb.content⟩
  · refine ⟨_, tmp, hr, rfl, hg.size_eq, hafter, hc.size, ?_, ?_⟩
    · rw [hg.size_eq]
      exact hg.le_sizeMax hcap
    · rcases hc with ⟨rfl, rfl⟩ | ⟨b, hb⟩
      · exact Memory.Block.at_nil ⟨le_refl _, Nat.le_add_right _ _⟩
      · exact hg.keeps hb.data hb.backed hb.content

end Reserve

end Jstr
