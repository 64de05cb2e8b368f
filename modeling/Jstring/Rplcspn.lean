import Jstring.Strip
import Jstring.Lib.Yields
import Mathlib.Data.List.TakeWhile

/-!
# Runs of bytes of a set

`jstr_rplcspn`, `jstr_rplcallspn_from`, `jstr_rplcallspn`, `jstr_rmspn_from`, `jstr_rmspn`,
`jstr_rmspn_len_from` and `jstr_rmspn_len` of `include/replace.h`: the bytes of a set
overwritten run by run, and the first run deleted.

- `rplcallspns`: every byte of the set from the index on is overwritten, and
  nothing else, as many as deleting the set deletes;
- `rmspn_drains`: deleting the first run again and again, until nothing is
  deleted, comes to an end and leaves what deleting the set at once leaves.
-/

namespace Jstr

open Words Iterators

/-! ## The functions -/

/-- `jstr_rplcspn`. -/
def rplcspn (env : Mem) (b : Blk) (s : Nat) (reject : Bytes) (rplc : UInt8) : Run (Nat × Blk) := do
  match ← nextRmallspn env reject b s with
  | (_, none) => .ok (0, b)
  | (s, some changed) => do
    let b ← b.write s (List.replicate changed rplc)
    .ok (changed, b)

/-- `while (*p && (*(p += strcspn(p, reject)))) { ... }`: overwrite a run and go on
behind it. -/
def rplcallspnLoop (env : Mem) (reject : Bytes) (rplc : UInt8) :
    Nat → Blk → Nat → Nat → Run (Nat × Blk × Nat)
  | 0, _, _, _ => .error .diverge
  | fuel + 1, b, p, changed => do
    match ← nextRmallspn env reject b p with
    | (p, none) => .ok (changed, b, p)
    | (p, some i) => do
      let (b, p) ← mempset b p rplc i
      rplcallspnLoop env reject rplc fuel b p (changed + i)

/-- `jstr_rplcallspn_from`. -/
def rplcallspnFrom (env : Mem) (j : JstrTy) (startIdx : Nat) (reject : Bytes) (rplc : UInt8) :
    Run (Nat × JstrTy) :=
  if startIdx ≥ j.size then .ok (0, j)
  else do
    let b ← j.deref
    let (changed, b', p) ← rplcallspnLoop env reject rplc (sizeMax + 1) b (b.addr + startIdx) 0
    .ok (changed, { j with data := some b', size := p - b.addr })

/-- `jstr_rplcallspn`. -/
def rplcallspn (env : Mem) (j : JstrTy) (reject : Bytes) (rplc : UInt8) : Run (Nat × JstrTy) :=
  rplcallspnFrom env j 0 reject rplc

/-- `jstr_rmspn_from`. -/
def rmspnFrom (env : Mem) (j : JstrTy) (startIdx : Nat) (reject : Bytes) : Run (Nat × JstrTy) :=
  if startIdx ≥ j.size then .ok (0, j)
  else do
    let b ← j.deref
    match ← nextRmallspn env reject b (b.addr + startIdx) with
    | (p, none) => .ok (0, { j with size := p - b.addr })
    | (p, some changed) => do
      let (b', p) ← stpmoveLen b p (p + changed) (b.addr + j.size - p - changed)
      .ok (changed, { j with data := some b', size := p - b.addr })

/-- `jstr_rmspn`. -/
def rmspn (env : Mem) (j : JstrTy) (reject : Bytes) : Run (Nat × JstrTy) := rmspnFrom env j 0 reject

/-- `jstr_rmspn_len_from`; the body is that of `jstr_rmspn_from`. -/
def rmspnLenFrom (env : Mem) (j : JstrTy) (startIdx : Nat) (reject : Bytes) : Run (Nat × JstrTy) :=
  rmspnFrom env j startIdx reject

/-- `jstr_rmspn_len`. -/
def rmspnLen (env : Mem) (j : JstrTy) (reject : Bytes) : Run (Nat × JstrTy) :=
  rmspnLenFrom env j 0 reject

/-! ## Overwriting -/

/-- The text with every byte of the set overwritten. -/
def overwritten (reject : Bytes) (rplc : UInt8) (l : Bytes) : Bytes :=
  l.map fun x => if x ∈ reject then rplc else x

section Overwrite

variable {reject : Bytes} {rplc : UInt8} {env : Mem} {e : Nat}

theorem overwritten_append (l m : Bytes) :
    overwritten reject rplc (l ++ m) = overwritten reject rplc l ++ overwritten reject rplc m :=
  List.map_append

theorem length_overwritten (l : Bytes) : (overwritten reject rplc l).length = l.length :=
  List.length_map _

theorem overwritten_of_forall_not {l : Bytes} (h : ∀ x ∈ l, x ∉ reject) :
    overwritten reject rplc l = l := by
  rw [overwritten]
  refine (List.map_congr_left fun x hx => if_neg (h x hx)).trans (List.map_id' l)

theorem overwritten_of_forall {l : Bytes} (h : ∀ x ∈ l, x ∈ reject) :
    overwritten reject rplc l = List.replicate l.length rplc := by
  rw [overwritten, List.eq_replicate_iff, List.length_map]
  refine ⟨rfl, fun y hy => ?_⟩
  obtain ⟨x, hx, rfl⟩ := List.mem_map.mp hy
  exact if_pos (h x hx)

/-- The bytes before the first run of the set, the run, and the rest. -/
theorem run_split {l : Bytes} (hlt : cspn reject l < l.length) : ∃ keep run rest,
    l = keep ++ (run ++ rest) ∧ keep.length = cspn reject l ∧
      run.length = spn reject (l.drop (cspn reject l)) ∧ 0 < run.length ∧
      (∀ x ∈ keep, x ∉ reject) ∧ ∀ x ∈ run, x ∈ reject := by
  have hl : l.takeWhile (· ∉ reject) ++ l.dropWhile (· ∉ reject) = l :=
    List.takeWhile_append_dropWhile
  have hdrop := @List.drop_left _ (l.takeWhile (· ∉ reject)) (l.dropWhile (· ∉ reject))
  rw [hl] at hdrop
  have hrest := @List.takeWhile_append_dropWhile _ (· ∈ reject) (l.dropWhile (· ∉ reject))
  have hpos : 0 < ((l.dropWhile (· ∉ reject)).takeWhile (· ∈ reject)).length := by
    have hhead := List.head?_dropWhile_not (· ∉ reject) l
    cases hr : l.dropWhile (· ∉ reject) with
    | nil =>
        have := congrArg List.length hl
        rw [hr, List.append_nil] at this
        rw [cspn] at hlt
        omega
    | cons x r =>
        rw [hr] at hhead
        have hx : x ∈ reject := by simpa using hhead
        rw [List.takeWhile_cons, if_pos (decide_eq_true hx)]
        exact Nat.succ_pos _
  refine ⟨_, _, (l.dropWhile (· ∉ reject)).dropWhile (· ∈ reject), ?_, rfl, ?_, hpos,
    fun x hx => ?_, fun x hx => ?_⟩
  · rw [hrest, hl]
  · rw [cspn, hdrop, spn]
  · simpa using List.mem_takeWhile_imp hx
  · simpa using List.mem_takeWhile_imp hx

/-- From `p` on the loop overwrites what is to be overwritten, up to the terminator. -/
theorem rplcallspnLoop_eq : ∀ (fuel : Nat) {b : Blk} {p changed : Nat} {rem : Bytes}, 0 ∉ rem →
    b.At p (rem ++ [0]) → p + rem.length = e → e ≤ sizeMax → rem.length < fuel →
    rplcallspnLoop env reject rplc fuel b p changed
      = .ok (changed + dropped reject rem, b.put p (overwritten reject rplc rem), e) := by
  intro fuel
  induction fuel with
  | zero => exact fun _ _ _ _ hf => absurd hf (Nat.not_lt_zero _)
  | succ fuel ih =>
      intro b p changed rem h0 hat he hfit hf
      have hnext := @skims_rmallspn env b e reject hfit b (SameBlock.refl b) p rem h0 hat he
      rw [rplcallspnLoop, hnext]
      by_cases hend : cspn reject rem = rem.length
      · have hnot : ∀ x ∈ rem, x ∉ reject := by
          have := @not_mem_of_mem_take_cspn reject rem
          rwa [hend, List.take_length] at this
        rw [if_pos hend, overwritten_of_forall_not hnot, Memory.Block.put_of_at hat.left,
          (kept_of_forall_not hnot).2, hend, he]
        rfl
      · obtain ⟨keep, run, rest, rfl, hk, hr, hpos, hkeep, hrun⟩ :=
          run_split (Nat.lt_of_le_of_ne (cspn_le reject rem) hend)
        have hlen : (keep ++ (run ++ rest)).length = keep.length + (run.length + rest.length) := by
          rw [List.length_append, List.length_append]
        have hat' : b.At (p + keep.length + run.length) (rest ++ [0]) := by
          rw [List.append_assoc, List.append_assoc] at hat
          exact hat.right.right
        have hin := hat.inRange
        rw [List.length_append, hlen, List.length_singleton] at hin
        have hset := @mempset_eq b (p + keep.length) run.length rplc
          ⟨by have := hin.1; omega, by have := hin.2; omega⟩
        have hrest := @ih (b.put (p + keep.length) (List.replicate run.length rplc))
          (p + keep.length + run.length) (changed + run.length) rest
          (fun hz => h0 (List.mem_append_right _ (List.mem_append_right _ hz)))
          (hat'.put_of_disjoint (.inr (by rw [List.length_replicate]))) (by omega) hfit (by omega)
        rw [if_neg hend, ← hr, ← hk]
        simp only [bind, Except.bind, hset, hrest]
        -- the bytes kept are written over themselves
        have hself : b.put p keep = b := Memory.Block.put_of_at (by
          rw [List.append_assoc] at hat
          exact hat.left)
        have hrep := Memory.Block.put_append b (p + keep.length) (List.replicate run.length rplc)
          (overwritten reject rplc rest)
        have hall := Memory.Block.put_append b p keep
          (List.replicate run.length rplc ++ overwritten reject rplc rest)
        rw [List.length_replicate] at hrep
        rw [hself] at hall
        rw [hrep, hall, overwritten_append, overwritten_append, overwritten_of_forall_not hkeep,
          overwritten_of_forall hrun, dropped_append, dropped_append,
          (kept_of_forall_not hkeep).2, (kept_of_forall hrun).2, Nat.zero_add, Nat.add_assoc]

end Overwrite

section Spans

variable {env : Mem} {j : JstrTy} {s : Bytes}

/-- The block of a string, with what the searches say of it. -/
theorem Str.skims (hs : Str j s) (haddr : Addressed j) (env : Mem) (reject : Bytes) :
    ∃ b, j.data = some b ∧ b.size = j.capacity ∧ j.size = s.length ∧ b.At b.addr (s ++ [0]) ∧
      b.addr + s.length ≤ sizeMax ∧
      Skims reject (spn reject) b (b.addr + s.length) (nextRmallspn env reject) := by
  obtain ⟨b, hd, hcap, hsize, hat⟩ := hs
  have hfit := haddr b hd
  rw [hsize] at hfit
  exact ⟨b, hd, hcap, hsize, hat, hfit, skims_rmallspn hfit⟩

theorem rplcallspnFrom_spec (hs : Str j s) (h0 : 0 ∉ s) (haddr : Addressed j) (start : Nat)
    (reject : Bytes) (rplc : UInt8) :
    ∃ j', rplcallspnFrom env j start reject rplc = .ok (dropped reject (s.drop start), j') ∧
      Str j' (s.take start ++ overwritten reject rplc (s.drop start)) := by
  obtain ⟨b, hd, hcap, hsize, hat, hfit, -⟩ := hs.skims haddr env reject
  rw [rplcallspnFrom]
  by_cases hge : start ≥ j.size
  · have hlen : s.length ≤ start := by omega
    rw [if_pos hge, List.drop_of_length_le hlen, List.take_of_length_le hlen]
    exact ⟨j, rfl, by rwa [show overwritten reject rplc [] = [] from rfl, List.append_nil]⟩
  · have hstart : start ≤ s.length := by omega
    have hfrom : b.At (b.addr + start) (s.drop start ++ [0]) := by
      have := hat.drop (n := start) (by rw [List.length_append]; omega)
      rwa [List.drop_append_of_le_length hstart] at this
    have hloop := @rplcallspnLoop_eq reject rplc env (b.addr + s.length) (sizeMax + 1) b
      (b.addr + start) 0 (s.drop start) (fun hz => h0 (List.mem_of_mem_drop hz)) hfrom
      (by rw [List.length_drop]; omega) hfit (by rw [List.length_drop]; omega)
    rw [if_neg hge]
    simp only [JstrTy.deref, hd, bind, Except.bind, hloop]
    refine ⟨_, by rw [Nat.zero_add], _, rfl, ?_, ?_, ?_⟩
    · rw [Memory.Block.put_size, hcap]
    · rw [List.length_append, length_overwritten, ← List.length_append, List.take_append_drop]
      simp only
      omega
    · have hput := @Memory.Block.At.put_mid _ b b.addr (s.take start) (s.drop start)
        (overwritten reject rplc (s.drop start)) [0] (by rwa [List.take_append_drop])
        (length_overwritten _)
      rwa [List.length_take_of_le hstart] at hput

end Spans

/-- Every byte of the set from the index on is overwritten and counted, also when it is
overwritten with one of the set or with NUL; deleting the set deletes as many. -/
theorem rplcallspns (env : Mem) {j : JstrTy} {s : Bytes} (hs : Str j s) (h0 : 0 ∉ s)
    (haddr : Addressed j) (start : Nat) (reject : Bytes) (rplc : UInt8) :
    ∃ changed j' j'', changed = (s.drop start).countP (· ∈ reject) ∧
      rplcallspnFrom env j start reject rplc = .ok (changed, j') ∧
      Str j' (s.take start ++ (s.drop start).map fun x => if x ∈ reject then rplc else x) ∧
      j'.size = j.size ∧ rmallspnFrom env j start reject = .ok (changed, j'') ∧
      j''.size + changed = j.size := by
  obtain ⟨j', hrplc, hj'⟩ := @rplcallspnFrom_spec env j s hs h0 haddr start reject rplc
  obtain ⟨j'', hrm, hj''⟩ := @rmallspnFrom_spec env j s hs h0 haddr start reject
  have hlen := dropped_add_kept reject (s.drop start)
  have hsplit := congrArg List.length (List.take_append_drop start s)
  rw [List.length_append] at hsplit
  refine ⟨dropped reject (s.drop start), j', j'', rfl, hrplc, hj', ?_, hrm, ?_⟩
  · rw [hj'.content.size, hs.content.size, List.length_append, length_overwritten, hsplit]
  · rw [hj''.content.size, hs.content.size, List.length_append]
    omega

theorem str_abba : Str ⟨some ⟨64, [97, 98, 98, 97, 0]⟩, 4, 5⟩ [97, 98, 98, 97] :=
  ⟨_, rfl, rfl, rfl, by decide, by decide⟩

theorem addressed_abba : Addressed ⟨some ⟨64, [97, 98, 98, 97, 0]⟩, 4, 5⟩ := by
  rintro b ⟨⟩
  decide

/-- "abba", the 'b's overwritten. -/
theorem rplcallspns_abba : ∃ j',
    rplcallspnFrom (memOf []) ⟨some ⟨64, [97, 98, 98, 97, 0]⟩, 4, 5⟩ 1 [98] 45 = .ok (2, j') ∧
      Str j' [97, 45, 45, 97] := by
  obtain ⟨_, j', -, rfl, hrplc, hj', -⟩ :=
    rplcallspns (memOf []) str_abba (by decide) addressed_abba 1 [98] 45
  exact ⟨j', hrplc, hj'⟩

/-! ## Run by run -/

/-- One turn of `while ((n = f(s))) { ... }`. -/
def whileChanged {σ : Type} (f : σ → Run (Nat × σ)) (s : σ) : Run (Option (Nat × σ)) := do
  match ← f s with
  | (0, _) => .ok none
  | (n + 1, s) => .ok (some (n + 1, s))

theorem whileChanged_zero {σ : Type} {f : σ → Run (Nat × σ)} {s s' : σ} (h : f s = .ok (0, s')) :
    whileChanged f s = .ok none := by
  rw [whileChanged, h]
  rfl

theorem whileChanged_pos {σ : Type} {f : σ → Run (Nat × σ)} {s s' : σ} {n : Nat}
    (h : f s = .ok (n, s')) (hn : 0 < n) : whileChanged f s = .ok (some (n, s')) := by
  obtain ⟨n, rfl⟩ := Nat.exists_eq_succ_of_ne_zero (Nat.ne_of_gt hn)
  rw [whileChanged, h]
  rfl

section Drain

variable {env : Mem} {reject : Bytes} {start : Nat}

/-- Before the index `front`, then a text whose filtering leaves `left` and takes `n`. -/
def RunsLeft (reject front left : Bytes) (n : Nat) (j : JstrTy) : Prop :=
  ∃ l, Str j (front ++ l) ∧ 0 ∉ front ++ l ∧ Addressed j ∧ kept reject l = left ∧
    dropped reject l = n

theorem kept_of_dropped_eq_zero {l : Bytes} (h : dropped reject l = 0) : kept reject l = l := by
  have hall : ∀ x ∈ l, x ∉ reject := by simpa [dropped, List.countP_eq_zero] using h
  exact (kept_of_forall_not hall).1

/-- No run is left, or the first one is deleted and the rest moved up. -/
theorem rmspnFrom_step {front left : Bytes} {n : Nat} {j : JstrTy}
    (h : RunsLeft reject front left n j) :
    (whileChanged (fun j => rmspnFrom env j front.length reject) j = .ok none ∧ n = 0) ∨
      ∃ v n' j', whileChanged (fun j => rmspnFrom env j front.length reject) j
        = .ok (some (v, j')) ∧ RunsLeft reject front left n' j' ∧ 0 < v ∧ n = v + n' := by
  obtain ⟨l, hs, h0, haddr, rfl, rfl⟩ := h
  obtain ⟨b, hd, hcap, hsize, hat, hfit, hskims⟩ := hs.skims haddr env reject
  rw [List.length_append] at hsize hfit hskims
  have h0l : 0 ∉ l := fun hz => h0 (List.mem_append_right _ hz)
  by_cases hge : front.length ≥ j.size
  · obtain rfl : l = [] := List.eq_nil_of_length_eq_zero (by omega)
    have hnone : rmspnFrom env j front.length reject = .ok (0, j) := by rw [rmspnFrom, if_pos hge]
    exact .inl ⟨whileChanged_zero hnone, rfl⟩
  rw [List.append_assoc] at hat
  have hnext := hskims b (SameBlock.refl b) (b.addr + front.length) l h0l hat.right (by omega)
  by_cases hend : cspn reject l = l.length
  · have hnot : ∀ x ∈ l, x ∉ reject := by
      have := @not_mem_of_mem_take_cspn reject l
      rwa [hend, List.take_length] at this
    have hnone : ∃ j', rmspnFrom env j front.length reject = .ok (0, j') := by
      rw [rmspnFrom, if_neg hge]
      simp only [JstrTy.deref, hd, bind, Except.bind, hnext, if_pos hend]
      exact ⟨_, rfl⟩
    obtain ⟨j', hnone⟩ := hnone
    exact .inl ⟨whileChanged_zero hnone, (kept_of_forall_not hnot).2⟩
  · obtain ⟨keep, run, rest, rfl, hk, hr, hpos, hkeep, hrun⟩ :=
      run_split (Nat.lt_of_le_of_ne (cspn_le reject l) hend)
    rw [if_neg hend, ← hr, ← hk] at hnext
    have hlen : (keep ++ (run ++ rest)).length = keep.length + (run.length + rest.length) := by
      rw [List.length_append, List.length_append]
    have hsrc : b.At (b.addr + front.length + keep.length + run.length) rest := by
      have := hat.right
      rw [List.append_assoc, List.append_assoc] at this
      exact this.right.right.left
    have hin := hat.right.inRange
    rw [List.length_append, hlen, List.length_singleton] at hin
    have hmove := @stpmoveLen_eq b (b.addr + front.length + keep.length) _ _ rest hsrc rfl
      ⟨by omega, by have := hin.2; omega⟩
    have hcall : rmspnFrom env j front.length reject = .ok (run.length,
        { j with data := some (b.put (b.addr + front.length + keep.length) (rest ++ [0])),
                 size := b.addr + front.length + keep.length + rest.length - b.addr }) := by
      rw [rmspnFrom, if_neg hge]
      simp only [JstrTy.deref, hd, bind, Except.bind, hnext]
      rw [show b.addr + j.size - (b.addr + front.length + keep.length) - run.length = rest.length by
        omega, hmove]
    refine .inr ⟨_, dropped reject rest, _, whileChanged_pos hcall hpos,
      ⟨keep ++ rest, ?_, ?_, ?_, ?_, ?_⟩, hpos, ?_⟩
    · refine ⟨_, rfl, by rw [Memory.Block.put_size, hcap], ?_, ?_⟩
      · simp only [List.length_append]
        omega
      · have hfront : b.At b.addr (front ++ keep) := by
          rw [List.append_assoc, ← List.append_assoc front] at hat
          exact hat.left
        rw [← List.append_assoc, List.append_assoc (front ++ keep), Memory.Block.at_append]
        refine ⟨hfront.put_of_disjoint (.inl ?_), ?_⟩
        · rw [List.length_append, Nat.add_assoc]
        · rw [Memory.Block.put_addr, List.length_append, ← Nat.add_assoc]
          refine Memory.Block.at_put ⟨by omega, ?_⟩
          rw [List.length_append, List.length_singleton]
          have := hin.2
          omega
    · simp only [List.mem_append, not_or] at h0 ⊢
      exact ⟨h0.1, h0.2.1, h0.2.2.2⟩
    · rintro b' ⟨⟩
      simp only [Memory.Block.put_addr]
      omega
    · rw [kept_append, kept_append, kept_append, (kept_of_forall hrun).1, List.nil_append]
    · rw [dropped_append, (kept_of_forall_not hkeep).2, Nat.zero_add]
    · rw [dropped_append, dropped_append, (kept_of_forall_not hkeep).2, (kept_of_forall hrun).2,
        Nat.zero_add]

/-- The text at `p` is `l`, which overwritten is `target`, and `n` bytes of it are still to be
overwritten. -/
def RunsShown (reject target : Bytes) (rplc : UInt8) (b : Blk) (p n : Nat) (b' : Blk) : Prop :=
  ∃ l, b' = b.put p l ∧ b'.At p (l ++ [0]) ∧ 0 ∉ l ∧ l.length = target.length ∧
    overwritten reject rplc l = target ∧ dropped reject l = n

theorem rplcspn_step {rplc : UInt8} {target : Bytes} {b b' : Blk} {p n : Nat} (hrplc : rplc ∉ reject)
    (hzero : rplc ≠ 0) (hfit : p + target.length ≤ sizeMax)
    (h : RunsShown reject target rplc b p n b') :
    (whileChanged (fun b => rplcspn env b p reject rplc) b' = .ok none ∧ n = 0) ∨
      ∃ v n' b'', whileChanged (fun b => rplcspn env b p reject rplc) b' = .ok (some (v, b'')) ∧
        RunsShown reject target rplc b p n' b'' ∧ 0 < v ∧ n = v + n' := by
  obtain ⟨l, hput, hat, h0, hlen, rfl, rfl⟩ := h
  rw [length_overwritten] at hfit
  have hnext := @skims_rmallspn env b' (p + l.length) reject hfit b' (SameBlock.refl b') p l h0 hat
    rfl
  by_cases hend : cspn reject l = l.length
  · have hnot : ∀ x ∈ l, x ∉ reject := by
      have := @not_mem_of_mem_take_cspn reject l
      rwa [hend, List.take_length] at this
    rw [if_pos hend] at hnext
    have hnone : rplcspn env b' p reject rplc = .ok (0, b') := by
      rw [rplcspn, hnext]
      rfl
    exact .inl ⟨whileChanged_zero hnone, (kept_of_forall_not hnot).2⟩
  · obtain ⟨keep, run, rest, rfl, hk, hr, hpos, hkeep, hrun⟩ :=
      run_split (Nat.lt_of_le_of_ne (cspn_le reject l) hend)
    rw [if_neg hend, ← hr, ← hk] at hnext
    have hrep : (List.replicate run.length rplc).length = run.length := List.length_replicate
    have hin := hat.inRange
    simp only [List.length_append, List.length_singleton] at hin
    have hwrite : b'.write (p + keep.length) (List.replicate run.length rplc)
        = .ok (b.put p (keep ++ (List.replicate run.length rplc ++ rest))) := by
      rw [Blk.write_eq ⟨by have := hin.1; omega, by rw [hrep]; have := hin.2; omega⟩, hput]
      have hmid := @Memory.Block.put_put_mid _ b p keep run (List.replicate run.length rplc) rest hrep
      rw [List.append_assoc, List.append_assoc] at hmid
      rw [hmid]
    have hcall : rplcspn env b' p reject rplc
        = .ok (run.length, b.put p (keep ++ (List.replicate run.length rplc ++ rest))) := by
      rw [rplcspn, hnext]
      simp only [bind, Except.bind, hwrite]
    have hnotrep : ∀ x ∈ List.replicate run.length rplc, x ∉ reject := fun x hx =>
      List.eq_of_mem_replicate hx ▸ hrplc
    refine .inr ⟨_, dropped reject rest, _, whileChanged_pos hcall hpos,
      ⟨keep ++ (List.replicate run.length rplc ++ rest), rfl, ?_, ?_, ?_, ?_, ?_⟩, hpos, ?_⟩
    · have hmid := @Memory.Block.At.put_mid _ b' p keep run (List.replicate run.length rplc)
        (rest ++ [0]) (by simpa only [List.append_assoc] using hat) hrep
      rw [Blk.write_eq ⟨by have := hin.1; omega, by rw [hrep]; have := hin.2; omega⟩] at hwrite
      rw [Except.ok.inj hwrite] at hmid
      simpa only [List.append_assoc] using hmid
    · simp only [List.mem_append, List.mem_replicate, not_or] at h0 ⊢
      exact ⟨h0.1, fun hz => hzero hz.2.symm, h0.2.2⟩
    · simp only [length_overwritten, List.length_append, hrep]
    · simp only [overwritten_append]
      rw [overwritten_of_forall_not hnotrep, overwritten_of_forall hrun]
    · rw [dropped_append, dropped_append, (kept_of_forall_not hkeep).2,
        (kept_of_forall_not hnotrep).2, Nat.zero_add, Nat.zero_add]
    · rw [dropped_append, dropped_append, (kept_of_forall_not hkeep).2, (kept_of_forall hrun).2,
        Nat.zero_add]

end Drain

/-- Run by run until nothing changes: deleting the first run comes to an end and leaves what
deleting all of them at once leaves, overwriting the first run with a byte that is not in the
set what overwriting all of them leaves, with the same number of bytes in all. -/
theorem runs_drain (env : Mem) {j : JstrTy} {s : Bytes} (hs : Str j s) (h0 : 0 ∉ s)
    (haddr : Addressed j) (reject : Bytes) :
    (∀ start, ∃ ks j' j'' t, Drains (whileChanged fun j => rmspnFrom env j start reject) j ks j' ∧
      rmallspnFrom env j start reject = .ok (ks.sum, j'') ∧ Str j' t ∧ Str j'' t) ∧
    ∀ (b : Blk) (rplc : UInt8), j.data = some b → rplc ∉ reject → rplc ≠ 0 → ∃ ks b',
      Drains (whileChanged fun b' => rplcspn env b' b.addr reject rplc) b ks b' ∧
        rplcallspn env j reject rplc = .ok (ks.sum, { j with data := some b' }) := by
  constructor
  · intro start
    obtain ⟨j'', hrm, hj''⟩ := @rmallspnFrom_spec env j s hs h0 haddr start reject
    by_cases hstart : start ≤ s.length
    · have hleft : RunsLeft reject (s.take start) (kept reject (s.drop start))
          (dropped reject (s.drop start)) j := by
        refine ⟨s.drop start, ?_, ?_, haddr, rfl, rfl⟩ <;> rwa [List.take_append_drop]
      obtain ⟨ks, j', hdrains, ⟨l, hj', -, -, hkept, hzero⟩, hsum⟩ :=
        exists_drains (fun n j => @rmspnFrom_step env reject (s.take start) _ n j) _ hleft
      rw [List.length_take_of_le hstart] at hdrains
      rw [(kept_of_dropped_eq_zero hzero)] at hkept
      exact ⟨ks, j', j'', _, hdrains, hsum ▸ hrm, hkept ▸ hj', hj''⟩
    · have hnone : rmspnFrom env j start reject = .ok (0, j) := by
        rw [rmspnFrom, if_pos (by rw [hs.content.size]; omega)]
      have hlen : s.length ≤ start := by omega
      rw [List.drop_of_length_le hlen, List.take_of_length_le hlen] at hj''
      rw [List.drop_of_length_le hlen] at hrm
      refine ⟨[], j, j'', s, .done (whileChanged_zero hnone), hrm, hs, ?_⟩
      rwa [show kept reject [] = [] from rfl, List.append_nil] at hj''
  · intro b rplc hd hrplc hzero
    obtain ⟨b', hd', hcap, hsize, hat, hfit, -⟩ := hs.skims haddr env reject
    obtain rfl : b = b' := Option.some.inj (hd.symm.trans hd')
    have hshown : RunsShown reject (overwritten reject rplc s) rplc b b.addr (dropped reject s) b :=
      ⟨s, (Memory.Block.put_of_at hat.left).symm, hat, h0, (length_overwritten s).symm, rfl, rfl⟩
    obtain ⟨ks, b', hdrains, ⟨l, hput, -, -, -, hover, hnone⟩, hsum⟩ := exists_drains
      (fun n b' => @rplcspn_step env reject rplc (overwritten reject rplc s) b b' b.addr n hrplc hzero
        (by rwa [length_overwritten])) _ hshown
    have hall : ∀ x ∈ l, x ∉ reject := by simpa [dropped, List.countP_eq_zero] using hnone
    rw [overwritten_of_forall_not hall] at hover
    refine ⟨ks, b', hdrains, ?_⟩
    rw [hsum, hput, hover, rplcallspn, rplcallspnFrom]
    by_cases hempty : 0 ≥ j.size
    · obtain rfl : s = [] := List.eq_nil_of_length_eq_zero (by omega)
      rw [if_pos hempty, show overwritten reject rplc [] = [] from rfl, Blk.put_nil, ← hd]
      rfl
    · have hloop := @rplcallspnLoop_eq reject rplc env (b.addr + s.length) (sizeMax + 1) b b.addr 0 s
        h0 hat rfl hfit (by omega)
      rw [if_neg hempty]
      simp only [JstrTy.deref, hd, bind, Except.bind, Nat.add_zero, hloop, Nat.zero_add,
        Nat.add_sub_cancel_left, hsize]

/-- "abba", the one run of 'b's deleted. -/
theorem runs_drain_abba : ∃ ks j' j'' t,
    Drains (whileChanged fun j => rmspnFrom (memOf []) j 0 [98])
        ⟨some ⟨64, [97, 98, 98, 97, 0]⟩, 4, 5⟩ ks j' ∧
      rmallspnFrom (memOf []) ⟨some ⟨64, [97, 98, 98, 97, 0]⟩, 4, 5⟩ 0 [98] = .ok (ks.sum, j'') ∧
      Str j' t ∧ Str j'' t :=
  (runs_drain (memOf []) str_abba (by decide) addressed_abba [98]).1 0

end Jstr
