import Jstring.Spans
import Jstring.Trim

/-!
# Spans from the end

`jstr_strrspn_len` and `jstr_strrspn` of `include/string.h`, with
`jstr_internal_memrspn_musl`: the length that is left of an array without the
bytes of the set at its end.

That is what is returned unless the set is empty, where it is 0 whatever the
array, or is one byte from `0x80` on, which is compared as a signed value and
met nowhere (`strrspn_right_iff`). With the white space of `jstr_isspace` for a
set it is the length `jstr_trimend` leaves.
-/

namespace Jstr

/-- `jstr_internal_memrspn_musl`. With a one-byte set the bytes of the array are
unsigned and that of the set is not. -/
def memrspnMusl (mem : Mem) (s c n : Nat) : Run Nat :=
  if mem c = 0 then .ok 0
  else if mem (c + 1) = 0 then
    .ok (rspnLoop (fun x => (x.toNat : Int) == schar (mem c)) mem s n)
  else do
    let byteset ← addBytes mem (sizeMax + 1) c Bits.Bitset.empty
    return rspnLoop byteset.has mem s n

/-- `jstr_strrspn_len`. -/
def strrspnLen (mem : Mem) (s accept sz : Nat) : Run Nat := memrspnMusl mem s accept sz

/-- `jstr_strrspn`. -/
def strrspn (mem : Mem) (s accept : Nat) : Run Nat := do
  let sz ← strlen mem s
  strrspnLen mem s accept sz

section Spans

variable {mem : Mem} {s a : Nat} {l cs : Bytes}

theorem rspnLoop_eq (hit : UInt8 → Bool) (h : MemAt mem s l) :
    rspnLoop hit mem s l.length = (l.rdropWhile hit).length := by
  induction l using List.reverseRecOn with
  | nil => rfl
  | append_singleton l x ih =>
      obtain ⟨hl, hx⟩ := memAt_append.mp h
      have hx0 : mem (s + l.length) = x := hx 0 Nat.one_pos
      rw [List.length_append, List.length_singleton, rspnLoop, hx0, List.rdropWhile_concat]
      by_cases hhit : hit x = true
      · rw [if_pos hhit, if_pos hhit, ih hl]
      · rw [if_neg hhit, if_neg hhit, List.length_append, List.length_singleton]

/-- The length without the bytes of the set at the end. -/
def rspn (cs l : Bytes) : Nat := (l.rdropWhile (· ∈ cs)).length

theorem rspn_nil (l : Bytes) : rspn [] l = l.length := by
  rw [rspn, List.rdropWhile_eq_self_iff.mpr fun _ => by simp]

/-- What comes of it on each of the three paths. -/
def rspnFound (l : Bytes) : Bytes → Nat
  | [] => 0
  | [c] => if c.toNat < 128 then rspn [c] l else l.length
  | cs => rspn cs l

theorem Given.strrspnLen_eq (h : Given mem s l a cs) :
    strrspnLen mem s a l.length = .ok (rspnFound l cs) := by
  rw [strrspnLen, memrspnMusl]
  rcases h.set_cases with ⟨rfl, ha⟩ | ⟨c, rfl, ha, hne, ha'⟩ | ⟨hlen, ha, ha'⟩
  · rw [if_pos ha, rspnFound]
  · rw [ha, if_neg hne, if_pos ha', rspnLoop_eq _ h.bytes, rspnFound]
    refine congrArg _ ?_
    by_cases hc : c.toNat < 128
    · rw [if_pos hc, rspn]
      refine congrArg (fun hit => (l.rdropWhile hit).length) (funext fun x => ?_)
      rw [Bool.eq_iff_iff, beq_iff_eq, toNat_eq_schar, and_iff_right hc, decide_eq_true_iff,
        List.mem_singleton]
    · have hno : (fun x : UInt8 => (x.toNat : Int) == schar c) = fun _ => false := by
        funext x
        rw [beq_eq_false_iff_ne, Ne, toNat_eq_schar]
        exact fun h => hc h.1
      rw [if_neg hc, hno, List.rdropWhile_eq_self_iff.mpr fun _ => Bool.false_ne_true]
  · obtain ⟨byteset, hr, hhas⟩ := addBytes_spec h.set
    rw [if_neg ha, if_neg ha', hr]
    simp only [bind, Except.bind, pure, Except.pure]
    rw [rspnLoop_eq _ h.bytes, funext hhas]
    match cs, hlen with
    | _ :: _ :: _, _ => rfl

/-- Nothing is left out if the last byte stays. -/
theorem rspn_singleton_eq_length_iff {c : UInt8} :
    rspn [c] l = l.length ↔ l.getLast? ≠ some c := by
  have hself : rspn [c] l = l.length ↔ l.rdropWhile (· ∈ [c]) = l :=
    ⟨(List.rdropWhile_prefix _ l).eq_of_length, congrArg List.length⟩
  rw [hself, List.rdropWhile_eq_self_iff]
  constructor
  · intro h hlast
    have hne : l ≠ [] := by
      rintro rfl
      cases hlast
    rw [List.getLast?_eq_some_getLast hne, Option.some.injEq] at hlast
    exact h hne (by simp [hlast])
  · intro h hne hmem
    refine h ?_
    rw [List.getLast?_eq_some_getLast hne, Option.some.injEq]
    simpa using hmem

/-- Where a set that is not compared with, or with the wrong sign, does no harm. -/
def RspnStands (l cs : Bytes) : Prop :=
  (cs = [] → l = []) ∧ ∀ c, cs = [c] → 128 ≤ c.toNat → l.getLast? ≠ some c

theorem rspnFound_eq_iff : rspnFound l cs = rspn cs l ↔ RspnStands l cs := by
  match cs with
  | [] =>
      rw [rspnFound, rspn_nil, RspnStands, eq_comm, List.length_eq_zero_iff]
      exact ⟨fun h => ⟨fun _ => h, fun c hc => by cases hc⟩, fun h => h.1 rfl⟩
  | [c] =>
      rw [rspnFound, RspnStands]
      by_cases hc : c.toNat < 128
      · rw [if_pos hc]
        refine iff_of_true rfl ⟨(fun h => by cases h), fun d hd hle => ?_⟩
        cases hd
        omega
      · rw [if_neg hc, eq_comm, rspn_singleton_eq_length_iff]
        refine ⟨fun h => ⟨(fun h => by cases h), fun d hd _ => ?_⟩, fun h => h.2 c rfl (by omega)⟩
        cases hd
        exact h
  | _ :: _ :: _ =>
      exact iff_of_true rfl ⟨(fun h => by cases h), fun d hd => by cases hd⟩

/-- Exactly when the spans from the end are right; and the white space of a string goes as
trimming takes it. -/
theorem strrspn_right_iff (h : Given mem s l a cs) :
    (strrspnLen mem s a l.length = .ok (rspn cs l) ↔ RspnStands l cs) ∧
      (CStr mem s l → (strrspn mem s a = .ok (rspn cs l) ↔ RspnStands l cs)) ∧
      ((∀ x, x ∈ cs ↔ isspace x = true) → strrspnLen mem s a l.length = .ok (rtrim l).length) := by
  have hlen : strrspnLen mem s a l.length = .ok (rspn cs l) ↔ RspnStands l cs := by
    rw [h.strrspnLen_eq, Except.ok.injEq, rspnFound_eq_iff]
  refine ⟨hlen, fun hs => ?_, fun hset => ?_⟩
  · rw [← hlen]
    simp only [strrspn, hs.strlen_eq, bind, Except.bind]
  · have hspace : (fun x => decide (x ∈ cs)) = isspace := funext fun x => by
      rw [Bool.eq_iff_iff, decide_eq_true_iff, hset]
    have hstands : RspnStands l cs := by
      have h32 : (32 : UInt8) ∈ cs := (hset 32).mpr rfl
      have h10 : (10 : UInt8) ∈ cs := (hset 10).mpr rfl
      refine ⟨fun hnil => ?_, fun c hc _ => ?_⟩
      · rw [hnil] at h32
        cases h32
      · -- two different bytes are in the set
        rw [hc, List.mem_singleton] at h32 h10
        exact absurd (h32.trans h10.symm) (by decide)
    rw [hlen.mpr hstands, rspn, hspace, rtrim]

/-- "aa" and the set "a" behind it. -/
theorem strrspn_right_iff_aa :
    strrspnLen (memOf [0, 97, 97, 97]) 1 3 ([97, 97] : Bytes).length = .ok (rspn [97] [97, 97])
      ↔ RspnStands [97, 97] [97] :=
  (strrspn_right_iff given_aa).1

end Spans

end Jstr
