import Jstring.Calls
import Jstring.Memrchr
import Jstring.Tokens

/-!
# Paths

`jstr_io_appendpath_len` of `include/io.h`, which puts a slash and a name
behind a path, and what takes a path apart: `jstr_basename`,
`jstr_basename_len` and `jstr_memrchrnul` of `include/string.h`, and
`jstr_strtok` with the slash.

`paths_roundtrip`: after any run of calls, some of which found no memory, the
path is the root with the names of the others behind it, both basenames point
to the last of them, and the loop over the tokens hands out the names of the
root and then those appended, in order.
-/

namespace Jstr

open Words Iterators

/-! ## The functions -/

/-- `jstr_io_appendpath_len_p`. -/
def ioAppendpathLenP (fname : Bytes) (b : Blk) (sz : Nat) : Run (Blk × Nat) := do
  let b ← b.write (b.addr + sz) [47]
  let b ← strcpyLen b (b.addr + sz + 1) fname
  .ok (b, b.addr + sz + 1 + fname.length)

/-- `jstr_io_appendpath_len`. -/
def ioAppendpathLen (al : Alloc) (j : JstrTy) (fname : Bytes) : Run (RetTy × JstrTy) :=
  orErr (reserve al j (addSz (addSz j.size fname.length) 2)) fun j => do
    let b ← j.deref
    let (b', p) ← ioAppendpathLenP fname b j.size
    .ok (.succ, { j with data := some b', size := subSz p b.addr })

/-- `jstr_memrchrnul`. -/
def memrchrnul (cfg : Build) (mem : Mem) (s : Nat) (c : UInt8) (sz : Nat) : Run Nat := do
  match ← memrchr cfg mem s c sz with
  | some p => return p
  | none => return s + sz

/-- `jstr_basename_len`. -/
def basenameLen (cfg : Build) (mem : Mem) (fname sz : Nat) : Run Nat := do
  match ← memrchr cfg mem fname 47 sz with
  | some p => return p + 1
  | none => return fname

/-- `strrchr(s, c)`, with the terminator part of the string. -/
def strrchr (mem : Mem) (s : Nat) (c : UInt8) : Run (Option Nat) := do
  let n ← strlen mem s
  return libcMemrchr mem s c (n + 1)

/-- `jstr_basename`. -/
def basename (mem : Mem) (fname : Nat) : Run Nat := do
  match ← strrchr mem fname 47 with
  | some p => return p + 1
  | none => return fname

/-! ## One call -/

/-- A path with a name behind it. -/
def joined (path fname : Bytes) : Bytes := path ++ [47] ++ fname

theorem ioAppendpathLen_spec {al : Alloc} {j : JstrTy} {l : Bytes} (fname : Bytes)
    (hc : Content j l) (hfit : l.length + fname.length + 2 ≤ sizeMax) :
    Safe j (fun j' => Str j' (joined l fname)) (ioAppendpathLen al j fname) := by
  have heq : ioAppendpathLen al j fname
      = growBy al j (fname.length + 1) (ioAppendpathLenP fname) := by
    rw [ioAppendpathLen, growBy, hc.size, @addSz_eq l.length fname.length (by omega),
      @addSz_eq l.length (fname.length + 1) (by omega), addSz_eq (by omega), addSz_eq (by omega)]
    rfl
  rw [heq]
  refine growBy_spec hc (by omega) fun b hroom hat => ?_
  have hlen : (joined l fname).length = l.length + 1 + fname.length := by
    rw [joined, List.length_append, List.length_append, List.length_singleton]
  refine ⟨b.put (b.addr + l.length) ([47] ++ (fname ++ [0])), ?_, ?_⟩
  · have hput := Memory.Block.put_append b (b.addr + l.length) [47] (fname ++ [0])
    rw [List.length_singleton] at hput
    rw [ioAppendpathLenP, Blk.write_eq ⟨Nat.le_add_right _ _, by
      rw [List.length_singleton]
      omega⟩]
    simp only [bind, Except.bind]
    rw [strcpyLen_eq ⟨by rw [Memory.Block.put_addr]; omega, by
      rw [Memory.Block.put_addr, Memory.Block.put_size]
      omega⟩, Memory.Block.put_addr, hput, hlen]
    simp only [Memory.Block.put_addr, Nat.add_assoc]
  · rw [joined, List.append_assoc]
    exact stores_back hat (by rw [List.length_append, List.length_singleton]; omega)

/-- Without memory nothing is appended. -/
theorem ioAppendpathLen_err {al : Alloc} {j j' : JstrTy} {fname : Bytes}
    (h : ioAppendpathLen al j fname = .ok (.err, j')) :
    j' = j ∧ Denied al j (addSz (addSz j.size fname.length) 2) := by
  have hreserve :=
    orErr_err h fun _ => noErr_bind fun _ => noErr_bind fun _ => noErr_succ _
  exact ⟨reserve_err hreserve, reserve_denied hreserve⟩

/-! ## The last name -/

section Basename

variable {mem : Mem} {s : Nat} {l fname : Bytes}

/-- The last slash of a path is in front of the name. -/
theorem rightmost_slash (h : MemAt mem s (joined l fname)) (hno : 47 ∉ fname) :
    Rightmost (HitAt mem s 47 (joined l fname).length) (some l.length) := by
  have hlen : (joined l fname).length = l.length + 1 + fname.length := by
    rw [joined, List.length_append, List.length_append, List.length_singleton]
  obtain ⟨⟨-, hslash⟩, hname⟩ := (memAt_append.mp h).imp_left memAt_append.mp
  have h47 := hslash 0 Nat.one_pos
  refine ⟨⟨by omega, h47⟩, fun i hi hit => hno ?_⟩
  obtain ⟨hlt, hc⟩ := hit
  obtain ⟨k, rfl⟩ := Nat.exists_eq_add_of_le (show l.length + 1 ≤ i by omega)
  have hk := hname.getElem? (show k < fname.length by omega)
  rw [List.length_append, List.length_singleton, Nat.add_assoc] at hk
  rw [hc] at hk
  exact List.mem_of_getElem? hk

/-- Both basenames point behind the last slash. -/
theorem basename_eq (cfg : Build) (hs : 0 < s) (h : CStr mem s (joined l fname))
    (hno : 47 ∉ fname) :
    basenameLen cfg mem s (joined l fname).length = .ok (s + l.length + 1) ∧
      basename mem s = .ok (s + l.length + 1) ∧
      memrchrnul cfg mem s 47 (joined l fname).length = .ok (s + l.length) := by
  have hlast := rightmost_slash h.bytes hno
  obtain ⟨r, hr, hright⟩ := @memrchr_rightmost mem s (joined l fname).length 47 cfg hs
  obtain ⟨r', hr', hright'⟩ := libcMemrchr_rightmost mem s 47 (joined l fname).length
  obtain rfl := hright.unique hlast
  obtain rfl := hright'.unique hlast
  have hnul : mem (s + (joined l fname).length) ≠ 47 := by
    rw [h.nul]
    decide
  refine ⟨?_, ?_, ?_⟩
  · rw [basenameLen, hr]
    rfl
  · simp only [basename, strrchr, h.strlen_eq, bind, Except.bind]
    rw [libcMemrchr, if_neg hnul, hr']
    rfl
  · rw [memrchrnul, hr]
    rfl

end Basename

/-! ## Runs of calls -/

/-- The names appended one after the other, each by a call with the allocator as it is then;
those of the calls that failed are left out. -/
inductive Pathed : JstrTy → List Bytes → JstrTy → Prop where
  | nil {j : JstrTy} : Pathed j [] j
  | done {j j₁ j' : JstrTy} {fname : Bytes} {names : List Bytes} (al : Alloc)
      (hcall : ioAppendpathLen al j fname = .ok (.succ, j₁)) (hrest : Pathed j₁ names j') :
      Pathed j (fname :: names) j'
  | failed {j j₁ j' : JstrTy} {fname : Bytes} {names : List Bytes} (al : Alloc)
      (hcall : ioAppendpathLen al j fname = .ok (.err, j₁)) (hrest : Pathed j₁ names j') :
      Pathed j names j'

/-- A name of a file. -/
def IsName (fname : Bytes) : Prop := fname ≠ [] ∧ 0 ∉ fname ∧ 47 ∉ fname

/-- How many bytes the names add. -/
def namesLen (names : List Bytes) : Nat := (names.map fun fname => fname.length + 1).sum

section Run

variable {names : List Bytes} {root : Bytes}

theorem Pathed.str {j j' : JstrTy} (h : Pathed j names j') : ∀ {root : Bytes}, Str j root →
    root.length + namesLen names + 2 ≤ sizeMax → Str j' (names.foldl joined root) := by
  induction h with
  | nil => exact fun hs _ => hs
  | failed al hcall hrest ih =>
      intro root hs hfit
      rw [(ioAppendpathLen_err hcall).1] at ih
      exact ih hs hfit
  | @done j j₁ j' fname names al hcall hrest ih =>
      intro root hs hfit
      rw [namesLen, List.map_cons, List.sum_cons] at hfit
      have h₁ := (ioAppendpathLen_spec fname hs.content (by omega)).outcomes.2.1 _ hcall
      refine ih h₁ ?_
      rw [joined, List.length_append, List.length_append, List.length_singleton, namesLen]
      omega

theorem not_mem_foldl_joined (hroot : 0 ∉ root) (hnames : ∀ fname ∈ names, IsName fname) :
    0 ∉ names.foldl joined root := by
  induction names generalizing root with
  | nil => exact hroot
  | cons fname names ih =>
      refine ih ?_ fun n hn => hnames n (List.mem_cons_of_mem fname hn)
      rw [joined, List.append_assoc, List.mem_append, List.mem_append]
      rintro (h | h | h)
      · exact hroot h
      · exact absurd h (by decide)
      · exact (hnames fname List.mem_cons_self).2.1 h

/-- A name behind a path is one token more. -/
theorem tokens_joined {fname : Bytes} (hname : IsName fname) (path : Bytes) :
    tokens [47] (joined path fname) = tokens [47] path ++ [fname] := by
  have hslash : (47 : UInt8) ∈ ([47] : Bytes) := List.mem_singleton_self _
  have hword := @tokens_word [47] [] fname
    (fun x hx h => hname.2.2 (List.mem_singleton.mp h ▸ hx)) hname.1 (fun x hx => by cases hx)
  rw [List.append_nil] at hword
  rw [joined, List.append_assoc, List.singleton_append, tokens_append_delim hslash, hword]
  rfl

theorem tokens_foldl_joined (hnames : ∀ fname ∈ names, IsName fname) :
    tokens [47] (names.foldl joined root) = tokens [47] root ++ names := by
  induction names generalizing root with
  | nil => exact (List.append_nil _).symm
  | cons fname names ih =>
      rw [List.foldl_cons, ih fun n hn => hnames n (List.mem_cons_of_mem fname hn),
        tokens_joined (hnames fname List.mem_cons_self), List.append_assoc,
        List.singleton_append]

/-- After any run of calls, memory refused at will: the path, its basename, and its names. A
call that fails was refused the room it asked for, and leaves the record. -/
theorem paths_roundtrip {env : Mem} {j j' : JstrTy} {fname : Bytes} (cfg : Build)
    (hs : Str j root) (hroot : 0 ∉ root) (hrun : Pathed j (names ++ [fname]) j')
    (hnames : ∀ n ∈ names ++ [fname], IsName n)
    (hfit : root.length + namesLen (names ++ [fname]) + 2 ≤ sizeMax) :
    (∀ (al : Alloc) (j₀ j₁ : JstrTy) (name : Bytes),
      ioAppendpathLen al j₀ name = .ok (.err, j₁) →
        j₁ = j₀ ∧ Denied al j₀ (addSz (addSz j₀.size name.length) 2)) ∧
    ∃ b, j'.data = some b ∧ Str j' (joined (names.foldl joined root) fname) ∧
      (0 < b.addr → b.addr + b.size ≤ sizeMax → ∃ q, q + fname.length = b.addr + j'.size ∧
        window (b.over env) q fname.length = fname ∧
        basenameLen cfg (b.over env) b.addr j'.size = .ok q ∧
        basename (b.over env) b.addr = .ok q ∧
        memrchrnul cfg (b.over env) b.addr 47 j'.size = .ok (q - 1) ∧
        ∃ pairs, Yields (tokenLoop (strtok (b.over env) [47])) b.addr pairs ∧
          (pairs.map fun (tok, save) => window (b.over env) tok (save - tok))
            = tokens [47] root ++ (names ++ [fname])) := by
  have hname := hnames fname (List.mem_append_right _ (List.mem_singleton_self fname))
  have hfold : (names ++ [fname]).foldl joined root = joined (names.foldl joined root) fname := by
    rw [List.foldl_append]
    rfl
  have hstr := hrun.str hs hfit
  have h0 := not_mem_foldl_joined hroot hnames
  have htokens := @tokens_foldl_joined _ root hnames
  rw [hfold] at hstr h0 htokens
  generalize names.foldl joined root = path at hstr h0 htokens ⊢
  have hlen : (joined path fname).length = path.length + 1 + fname.length := by
    rw [joined, List.length_append, List.length_append, List.length_singleton]
  obtain ⟨b, hd, -, hsize, hat⟩ := id hstr
  refine ⟨fun _ _ _ _ => ioAppendpathLen_err, b, hd, hstr, fun hpos haddr => ?_⟩
  have hin := hat.inRange.2
  rw [List.length_append, List.length_singleton] at hin
  have hcstr : CStr (b.over env) b.addr (joined path fname) := cstr_over hat h0 (by omega)
  obtain ⟨hbase, hbase', hnul⟩ := basename_eq cfg hpos hcstr hname.2.2
  obtain ⟨pairs, hy, hcuts⟩ := hcstr.strtok_yields [47] _ rfl
  have heq := hcuts.tokens_eq
  rw [Nat.add_sub_cancel_left, window_of_memAt hcstr.bytes, htokens] at heq
  have hend := (memAt_append.mp hcstr.bytes).2
  rw [List.length_append, List.length_singleton, ← Nat.add_assoc] at hend
  rw [hsize]
  exact ⟨b.addr + path.length + 1, by rw [hlen]; omega, window_of_memAt hend, hbase, hbase', hnul,
    pairs, hy, heq⟩

/-- "d", and "a" and "b" in it, with a call between them that finds no memory. -/
theorem paths_roundtrip_ab : ∃ j' b,
    Pathed ⟨some ⟨64, [100, 0]⟩, 1, 2⟩ [[97], [98]] j' ∧ j'.data = some b ∧
      Str j' [100, 47, 97, 47, 98] ∧
      (0 < b.addr → b.addr + b.size ≤ sizeMax → ∃ pairs,
        Yields (tokenLoop (strtok (b.over (memOf [])) [47])) b.addr pairs ∧
          (pairs.map fun (tok, save) => window (b.over (memOf [])) tok (save - tok))
            = ([[100], [97], [98]] : List Bytes)) := by
  have hrefused : ∀ j : JstrTy, j.size = 3 → j.capacity = 24 →
      ioAppendpathLen Alloc.failing j (List.replicate 30 97) = .ok (.err, j) := by
    rintro ⟨d, sz, cap⟩ rfl rfl
    rfl
  have hrun : ∃ j', Pathed ⟨some ⟨64, [100, 0]⟩, 1, 2⟩ ([[97]] ++ [[98]] : List Bytes) j' :=
    ⟨_, .done (Alloc.filling 64 0) rfl (.failed Alloc.failing (hrefused _ rfl rfl)
      (.done (Alloc.filling 64 0) rfl .nil))⟩
  have hs : Str ⟨some ⟨64, [100, 0]⟩, 1, 2⟩ [100] := ⟨_, rfl, rfl, rfl, by decide, by decide⟩
  have hnames : ∀ n ∈ ([[97]] ++ [[98]] : List Bytes), IsName n := by
    intro n hn
    rcases List.mem_pair.mp hn with rfl | rfl
    · exact ⟨by decide, by decide, by decide⟩
    · exact ⟨by decide, by decide, by decide⟩
  obtain ⟨j', hrun⟩ := hrun
  obtain ⟨-, b, hd, hstr, h⟩ := @paths_roundtrip [[97]] [100] (memOf []) _ j' [98] sse2Build hs
    (by decide) hrun hnames (by decide)
  refine ⟨j', b, hrun, hd, hstr, fun hpos haddr => ?_⟩
  obtain ⟨q, -, -, -, -, -, pairs, hy, heq⟩ := h hpos haddr
  exact ⟨pairs, hy, heq⟩

end Run

end Jstr
