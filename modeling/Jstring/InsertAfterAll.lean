import Jstring.Count
import Jstring.Memrchr

/-!
# Inserting after every match

`jstr_insertafterallchr_len` and `jstr_insertafterall_len` of
`include/replace.h`. The buffer is grown once and rebuilt from its end:
the text behind the last match, the inserted bytes, the match, and so on
down. What is still to be read lies below what is written, by the
insertions still to come (`Backward`).

- `rebuild_spec`, `rebuildChr_spec`: both loops leave the text with `src`
  behind each match;
- `insertafterallLen_eq_rplcallLen`: so does the forward replacement of
  the match by itself and `src`.
-/

namespace Jstr

open Words

/-! ## The two functions -/

/-- The second pass over a one-byte match: `rd` bytes are to be read, what
is written begins at `wr`. -/
def rebuildChr (cfg : Build) (env : Mem) (c : UInt8) (src : Bytes) :
    Nat → Blk → Nat → Nat → Run Blk
  | 0, _, _, _ => .error .diverge
  | fuel + 1, b, rd, wr =>
    if rd = 0 then .ok b
    else do
      match ← memrchr cfg (b.over env) b.addr c rd with
      | none => .ok b
      | some m => do
        let s := b.addr
        let pos := m - s
        let seg := rd - (pos + 1)
        let b ← b.memmove (s + wr - seg) (m + 1) seg
        let wr := wr - seg
        let b ← b.write (s + wr - src.length) src
        let wr := wr - src.length
        let x ← b.read m
        let wr := wr - 1
        let b ← b.write (s + wr) [x]
        rebuildChr cfg env c src fuel b pos wr

/-- The buffer grown to hold `cnt` insertions, then rebuilt by `f`. -/
def insertGrown (al : Alloc) (j : JstrTy) (cnt srcLen : Nat)
    (f : JstrTy → Blk → Nat → Run (Option Blk)) : Run (RetTy × JstrTy) :=
  let newSz := addSz j.size (mulSz cnt srcLen)
  orErr (reservealways al j (addSz newSz 1)) fun j => do
    let b ← j.deref
    match ← f j b newSz with
    | none => .ok (.err, j)
    | some b => do
      let b ← b.write (b.addr + newSz) [0]
      .ok (.succ, { j with data := some b, size := newSz })

/-- `jstr_insertafterallchr_len`. -/
def insertafterallchrLen (cfg : Build) (env : Mem) (al : Alloc) (j : JstrTy) (c : UInt8)
    (src : Bytes) : Run (RetTy × JstrTy) :=
  if src.length = 0 ∨ j.size = 0 then .ok (.succ, j)
  else do
    let b ← j.deref
    let cnt ← countMatches (nextMemchr env c (b.addr + j.size) b) 1 (j.size + 1) b.addr 0
    if cnt = 0 then .ok (.succ, j)
    else
      insertGrown al j cnt src.length fun j b newSz => do
        let b ← rebuildChr cfg env c src (j.size + 1) b j.size newSz
        return some b

/-- Record where each match is in the array `offs` with room for `room`
entries. -/
def recordOffs (next : Nat → Run (Option Nat)) (findLen s room : Nat) :
    Nat → Nat → List Nat → Run (List Nat)
  | 0, _, _ => .error .diverge
  | fuel + 1, p, offs => do
    match ← next p with
    | none => .ok offs
    | some p =>
      if offs.length < room then recordOffs next findLen s room fuel (p + findLen) (offs ++ [p - s])
      else .error .bounds

/-- The second pass over the matches recorded in `offs`, the last first. -/
def rebuild (findLen : Nat) (src : Bytes) (offs : List Nat) : Nat → Blk → Nat → Nat → Run Blk
  | 0, b, _, _ => .ok b
  | i + 1, b, rd, wr =>
    match offs[i]? with
    | none => .error .bounds
    | some pos => do
      let s := b.addr
      let seg := rd - (pos + findLen)
      let b ← b.memmove (s + wr - seg) (s + pos + findLen) seg
      let wr := wr - seg
      let b ← b.write (s + wr - src.length) src
      let wr := wr - src.length
      let b ← b.memmove (s + wr - findLen) (s + pos) findLen
      let wr := wr - findLen
      rebuild findLen src offs i b pos wr

/-- `jstr_insertafterall_len`. `malloc` says whether the array of offsets,
`cnt` times 8 bytes, can be had. -/
def insertafterallLen (cfg : Build) (env : Mem) (al : Alloc) (malloc : Nat → Bool) (j : JstrTy)
    (find findLen : Nat) (src : Bytes) : Run (RetTy × JstrTy) :=
  if findLen = 1 then insertafterallchrLen cfg env al j (env find) src
  else if findLen = 0 then .ok (.succ, j)
  else do
    let t ← memmemComp cfg env cfg.uninitTable find findLen
    let b ← j.deref
    let cnt ← countMatches (nextMemmem cfg env t find findLen (b.addr + j.size) b) findLen
      (j.size + 1) b.addr 0
    if cnt = 0 then .ok (.succ, j)
    else
      insertGrown al j cnt src.length fun j b newSz => do
        if malloc (mulSz cnt 8) then do
          let offs ← recordOffs (nextMemmem cfg env t find findLen (b.addr + j.size) b) findLen
            b.addr (mulSz cnt 8 / 8) (j.size + 1) b.addr []
          let b ← rebuild findLen src offs cnt b j.size newSz
          return some b
        else return none

/-! ## Rebuilding from the end -/

/-- `unread` is at the start of the block, `out` begins at offset `wr`,
`slack` bytes behind it. -/
structure Backward (b : Blk) (unread out : Bytes) (wr slack : Nat) : Prop where
  front : b.At b.addr unread
  back : b.At (b.addr + wr) out
  gap : unread.length + slack = wr

section Backward

variable {b : Blk} {unread piece out src : Bytes} {c : UInt8} {wr slack : Nat}

/-- Put bytes before what is written, above what is left unread. -/
theorem Backward.put (h : Backward b (unread ++ piece) out wr slack) {l : Bytes} {k : Nat}
    (hl : l.length + k = piece.length + slack) :
    b.InRange (b.addr + wr - l.length) l.length ∧
      Backward (b.put (b.addr + wr - l.length) l) unread (l ++ out) (wr - l.length) k := by
  obtain ⟨hfront, hback, hgap⟩ := h
  rw [List.length_append] at hgap
  have hr := hback.inRange.2
  have hin : b.InRange (b.addr + wr - l.length) l.length := ⟨by omega, by omega⟩
  refine ⟨hin, ?_, Memory.Block.at_append.mpr ⟨?_, ?_⟩, by omega⟩
  · exact hfront.left.put_of_disjoint (.inl (by omega))
  · rw [Memory.Block.put_addr, ← Nat.add_sub_assoc (by omega)]
    exact Memory.Block.at_put hin
  · rw [Memory.Block.put_addr, show b.addr + (wr - l.length) + l.length = b.addr + wr by omega]
    exact hback.put_of_disjoint (.inr (by omega))

/-- Moving up the last piece of what is unread: what is overwritten lies
behind it or has been read. -/
theorem Backward.move (h : Backward b (unread ++ piece) out wr slack) :
    ∃ b', b.memmove (b.addr + wr - piece.length) (b.addr + unread.length) piece.length = .ok b' ∧
      SameBlock b b' ∧ Backward b' unread (piece ++ out) (wr - piece.length) slack := by
  obtain ⟨hin, hput⟩ := @Backward.put b unread piece out wr slack h piece slack rfl
  exact ⟨_, Blk.memmove_eq h.front.right rfl hin, sameBlock_put b _ _, hput⟩

/-- Writing `src` takes up room of the same length. -/
theorem Backward.store (h : Backward b unread out wr slack) (hle : src.length ≤ slack) :
    ∃ b', b.write (b.addr + wr - src.length) src = .ok b' ∧ SameBlock b b' ∧
      Backward b' unread (src ++ out) (wr - src.length) (slack - src.length) := by
  rw [← List.append_nil unread] at h
  obtain ⟨hin, hput⟩ := @Backward.put b unread [] out wr slack h src (slack - src.length)
    (by rw [List.length_nil]; omega)
  exact ⟨_, Blk.write_eq hin, sameBlock_put b _ _, hput⟩

/-- Moving up a single byte by a load and a store. -/
theorem Backward.moveByte (h : Backward b (unread ++ [c]) out wr slack) :
    b.read (b.addr + unread.length) = .ok c ∧
      ∃ b', b.write (b.addr + (wr - 1)) [c] = .ok b' ∧ SameBlock b b' ∧
        Backward b' unread ([c] ++ out) (wr - 1) slack := by
  obtain ⟨hin, hput⟩ := @Backward.put b unread [c] out wr slack h [c] slack rfl
  have hgap := h.gap
  rw [List.length_append, List.length_singleton] at hgap
  rw [List.length_singleton, Nat.add_sub_assoc (by omega)] at hin hput
  exact ⟨Blk.read_eq h.front.right, _, Blk.write_eq hin, sameBlock_put b _ _, hput⟩

/-- What both loops do behind a match: move up the text, insert `src`. -/
theorem Backward.insert (h : Backward b (unread ++ piece) out wr (slack + src.length)) :
    ∃ b₁ b₂, b.memmove (b.addr + wr - piece.length) (b.addr + unread.length) piece.length
        = .ok b₁ ∧
      b₁.write (b.addr + (wr - piece.length) - src.length) src = .ok b₂ ∧ SameBlock b b₂ ∧
      Backward b₂ unread (src ++ (piece ++ out)) (wr - piece.length - src.length) slack := by
  obtain ⟨b₁, hmove, hb₁, h₁⟩ := h.move
  obtain ⟨b₂, hw, hb₂, h₂⟩ := h₁.store (Nat.le_add_left _ _)
  rw [hb₁.1] at hw
  rw [Nat.add_sub_cancel] at h₂
  exact ⟨b₁, b₂, hmove, hw, hb₁.trans hb₂, h₂⟩

/-- With nothing left to insert the two parts meet. -/
theorem Backward.close (h : Backward b unread out wr 0) : b.At b.addr (unread ++ out) :=
  Memory.Block.at_append.mpr ⟨h.front, by
    have := h.gap
    rw [show b.addr + unread.length = b.addr + wr by omega]
    exact h.back⟩

end Backward

/-! ## The two loops -/

section Loops

variable {cfg : Build} {env : Mem} {FIND src : Bytes} {c : UInt8}

/-- The text before and behind its last match. -/
theorem joinWith_last (glue p q : Bytes) (ps : List Bytes) :
    joinWith glue (ps ++ [p]) q = joinWith glue ps p ++ glue ++ q := by
  rw [joinWith_concat, joinWith_append_rest, joinWith_append_rest]

/-- From the last match on, the text behind it being `q` and what was
behind that being rebuilt. -/
theorem rebuild_spec (more : List Nat) (ps : List Bytes) : ∀ {b : Blk} {q out : Bytes} {wr : Nat},
    Backward b (joinWith FIND ps q) out wr (ps.length * src.length) →
    ∃ b', rebuild FIND.length src (starts FIND 0 ps ++ more) ps.length b
        (joinWith FIND ps q).length wr = .ok b' ∧
      SameBlock b b' ∧ b'.At b.addr (joinWith (FIND ++ src) ps (q ++ out)) := by
  induction ps using List.reverseRecOn generalizing more with
  | nil =>
      intro b q out wr h
      rw [List.length_nil, Nat.zero_mul] at h
      exact ⟨b, rfl, SameBlock.refl b, h.close⟩
  | append_singleton ps p ih =>
      intro b q out wr h
      rw [List.length_append, List.length_singleton, Nat.succ_mul, joinWith_last] at h
      obtain ⟨b₁, b₂, hmove, hw, hb₂, h₂⟩ := h.insert
      obtain ⟨b₃, hfind, hb₃, h₃⟩ := h₂.move
      obtain ⟨b', hrun, hb', hat⟩ := ih ([0 + (joinWith FIND ps p).length] ++ more) h₃
      have hpos : (starts FIND 0 (ps ++ [p]) ++ more)[ps.length]?
          = some (joinWith FIND ps p).length := by
        rw [starts_concat, List.append_assoc, List.getElem?_append_right
          (by rw [length_starts]), length_starts, Nat.sub_self, Nat.zero_add]
        rfl
      have hseg : (joinWith FIND (ps ++ [p]) q).length - ((joinWith FIND ps p).length + FIND.length)
          = q.length := by
        rw [joinWith_last, List.length_append, List.length_append]
        omega
      rw [List.length_append, ← Nat.add_assoc] at hmove
      rw [hb₂.1] at hfind
      refine ⟨b', ?_, (hb₂.trans hb₃).trans hb', ?_⟩
      · rw [List.length_append, List.length_singleton, rebuild]
        simp only [hpos, hseg, hmove, hw, hfind, bind, Except.bind]
        rw [starts_concat, List.append_assoc]
        exact hrun
      · rw [joinWith_concat]
        rw [hb₃.1, hb₂.1] at hat
        simpa only [List.append_assoc] using hat

/-- The last occurrence of a letter in the unread text. -/
theorem memrchr_last {b : Blk} {l q : Bytes} (hb : 0 < b.addr) (hat : b.At b.addr (l ++ [c] ++ q))
    (hq : c ∉ q) :
    memrchr cfg (b.over env) b.addr c (l ++ [c] ++ q).length = .ok (some (b.addr + l.length)) := by
  have hmem := @memAt_over env b _ _ hat
  obtain ⟨r, hr, hright⟩ := @memrchr_rightmost (b.over env) b.addr (l ++ [c] ++ q).length c cfg hb
  have hlast : Rightmost (HitAt (b.over env) b.addr c (l ++ [c] ++ q).length) (some l.length) := by
    refine ⟨⟨?_, ?_⟩, fun j hj h => hq ?_⟩
    · simp only [List.length_append, List.length_singleton]
      omega
    · have := (memAt_append.mp (memAt_append.mp hmem).1).2
      exact memAt_head this rfl
    · obtain ⟨hlt, hc⟩ := h
      have hj' := hmem.getElem? hlt
      rw [hc, List.getElem?_append_right (by simp; omega)] at hj'
      exact List.mem_of_getElem? hj'
  rw [hr, hright.unique hlast]
  rfl

theorem memrchr_none {b : Blk} {q : Bytes} (hb : 0 < b.addr) (hat : b.At b.addr q)
    (hq : c ∉ q) : memrchr cfg (b.over env) b.addr c q.length = .ok none := by
  have hmem := @memAt_over env b _ _ hat
  obtain ⟨r, hr, hright⟩ := @memrchr_rightmost (b.over env) b.addr q.length c cfg hb
  have hnone : Rightmost (HitAt (b.over env) b.addr c q.length) none := by
    rintro j ⟨hlt, hc⟩
    have hj := hmem.getElem? hlt
    rw [hc] at hj
    exact hq (List.mem_of_getElem? hj)
  rw [hr, hright.unique hnone]
  rfl

/-- The same for one byte, its matches found from the right. -/
theorem rebuildChr_spec (ps : List Bytes) : ∀ {fuel : Nat} {b : Blk} {q out : Bytes} {wr : Nat},
    0 < b.addr → Backward b (joinWith [c] ps q) out wr (ps.length * src.length) →
    (∀ p ∈ ps, c ∉ p) → c ∉ q → ps.length < fuel →
    ∃ b', rebuildChr cfg env c src fuel b (joinWith [c] ps q).length wr = .ok b' ∧
      SameBlock b b' ∧ b'.At b.addr (joinWith ([c] ++ src) ps (q ++ out)) := by
  induction ps using List.reverseRecOn with
  | nil =>
      intro fuel b q out wr hb0 h _ hq hf
      obtain ⟨fuel, rfl⟩ : ∃ f, fuel = f + 1 := ⟨fuel - 1, by omega⟩
      rw [List.length_nil, Nat.zero_mul] at h
      refine ⟨b, ?_, SameBlock.refl b, h.close⟩
      rw [rebuildChr]
      split
      · rfl
      · have hnone := @memrchr_none cfg env c b q hb0 h.front hq
        simp only [joinWith_nil, hnone, bind, Except.bind]
  | append_singleton ps p ih =>
      intro fuel b q out wr hb0 h hps hq hf
      obtain ⟨fuel, rfl⟩ : ∃ f, fuel = f + 1 := ⟨fuel - 1, by omega⟩
      rw [List.length_append, List.length_singleton, Nat.succ_mul, joinWith_last] at h
      obtain ⟨b₁, b₂, hmove, hw, hb₂, h₂⟩ := h.insert
      obtain ⟨hread, b₃, hput, hb₃, h₃⟩ := h₂.moveByte
      obtain ⟨b', hrun, hb', hat⟩ := @ih fuel b₃ p _ _ (by rw [hb₃.1, hb₂.1]; exact hb0) h₃
        (fun p' hp' => hps p' (List.mem_append_left _ hp'))
        (hps p (List.mem_append_right _ (List.mem_singleton_self p)))
        (by rw [List.length_append, List.length_singleton] at hf; omega)
      have hlast := @memrchr_last cfg env c b (joinWith [c] ps p) q hb0 h.front hq
      rw [← joinWith_last] at hlast
      have hseg : (joinWith [c] (ps ++ [p]) q).length - ((joinWith [c] ps p).length + 1)
          = q.length := by
        rw [joinWith_last, List.length_append, List.length_append, List.length_singleton]
        omega
      have hne : (joinWith [c] (ps ++ [p]) q).length ≠ 0 := by
        rw [joinWith_last, List.length_append, List.length_append, List.length_singleton]
        omega
      rw [List.length_append, List.length_singleton, ← Nat.add_assoc] at hmove
      rw [hb₂.1] at hread hput
      refine ⟨b', ?_, (hb₂.trans hb₃).trans hb', ?_⟩
      · rw [rebuildChr, if_neg hne]
        simp only [hlast, bind, Except.bind, Nat.add_sub_cancel_left, hseg, hmove, hw, hread, hput]
        exact hrun
      · rw [joinWith_concat]
        rw [hb₃.1, hb₂.1] at hat
        simpa only [List.append_assoc] using hat

end Loops

/-! ## The first pass -/

/-- From every offset of the text on, the next match is found. -/
theorem Seeks.next {find : Bytes} {b : Blk} {l : Bytes} {next : Blk → Nat → Run (Option Nat)}
    (h : Seeks find b (b.addr + l.length) next) (hat : b.At b.addr l) :
    ∀ k ≤ l.length, next b (b.addr + k)
      = .ok ((search find (l.drop k)).map (b.addr + k + ·)) := by
  intro k hk
  exact h b (SameBlock.refl b) _ _ (hat.drop hk) (by rw [List.length_drop]; omega)

theorem count_seeks {find : Bytes} {b : Blk} {l : Bytes} {next : Blk → Nat → Run (Option Nat)}
    (hfind : find ≠ []) (h : Seeks find b (b.addr + l.length) next) (hat : b.At b.addr l) :
    countMatches (next b) find.length (l.length + 1) b.addr 0 = .ok (countAll find l) := by
  have := countMatches_spec hfind (h.next hat) (l.length + 1) 0 0 (Nat.zero_le _) (by omega)
  rwa [List.drop_zero, Nat.zero_add] at this

/-- The offsets recorded are those of the matches, in order. -/
theorem recordOffs_spec {next : Nat → Run (Option Nat)} {find l : Bytes} {s room : Nat}
    (hfind : find ≠ [])
    (hnext : ∀ k ≤ l.length, next (s + k) = .ok ((search find (l.drop k)).map (s + k + ·))) :
    ∀ (fuel k : Nat) (offs : List Nat), k ≤ l.length → l.length < fuel + k →
      offs.length + countN find fuel (l.drop k) ≤ room →
      recordOffs next find.length s room fuel (s + k) offs
        = .ok (offs ++ starts find k (splitN find fuel (l.drop k)).1)
  | 0, k, offs, hk, hf, _ => by omega
  | fuel + 1, k, offs, hk, hf, hroom => by
      have hpos := List.length_pos_of_ne_nil hfind
      rw [recordOffs, hnext k hk]
      cases hs : search find (l.drop k) with
      | none =>
          rw [splitN_succ_none hs, starts, List.append_nil]
          rfl
      | some i =>
          have hlen := search_lt hs
          rw [countN_succ_some hs, List.drop_drop] at hroom
          rw [List.length_drop] at hlen
          have hroom' : (offs ++ [k + i]).length + countN find fuel (l.drop (k + (i + find.length)))
              ≤ room := by
            rw [List.length_append, List.length_singleton]
            omega
          have ih := recordOffs_spec hfind hnext fuel (k + (i + find.length)) (offs ++ [k + i])
            (by omega) (by omega) hroom'
          have hpiece : ((l.drop k).take i).length = i := by
            rw [List.length_take, List.length_drop]
            omega
          rw [splitN_succ_some hs, starts, hpiece, List.drop_drop]
          simp only [Option.map_some, bind, Except.bind]
          rw [if_pos (by omega), show s + k + i - s = k + i by omega,
            show s + k + i + find.length = s + (k + (i + find.length)) by omega, ih,
            List.append_assoc, ← Nat.add_assoc]
          rfl

/-! ## The whole call -/

/-- What inserting behind every `FIND` comes to: the record holds `l`, or still `s` when there is
something to insert and the block for `l`, which is always asked for, is refused or the memory
for the offsets is `lost`; only a request beyond 2 ^ 63 can loop. -/
def Inserted (al : Alloc) (j : JstrTy) (FIND s l : Bytes) (lost : Prop) :
    Run (RetTy × JstrTy) → Prop
  | .error f => f = .diverge ∧ 9223372036854775808 < l.length + 1
  | .ok (.err, j') => Str j' s ∧ 0 < countAll FIND s ∧
      (j' = j ∧ Refuses al j (l.length + 1) ∨ lost)
  | .ok (.succ, j') => Str j' l

theorem Inserted.mono {al : Alloc} {j : JstrTy} {FIND s l : Bytes} {lost lost' : Prop}
    {r : Run (RetTy × JstrTy)} (h : Inserted al j FIND s l lost r) (hlost : lost → lost') :
    Inserted al j FIND s l lost' r := by
  rcases r with f | ⟨_ | _, j'⟩
  · exact h
  · exact ⟨h.1, h.2.1, h.2.2.imp_right hlost⟩
  · exact h

section Whole

variable {cfg : Build} {env : Mem} {al : Alloc} {j : JstrTy} {s l FIND : Bytes} {find : Nat}

/-- The rule for `insertGrown`: what the rebuild does to a block with room. -/
theorem insertGrown_spec {cnt n : Nat} {lost : Prop} {f : JstrTy → Blk → Nat → Run (Option Blk)}
    (hs : Str j s) (hcnt : 0 < countAll FIND s) (hlen : l.length = s.length + cnt * n)
    (hfit : l.length + 1 ≤ sizeMax)
    (hf : ∀ j' b, reservealways al j (l.length + 1) = .ok (.succ, j') → Holds j' b s →
      l.length + 1 ≤ b.size →
      ∃ r, f j' b l.length = .ok r ∧ (r = none → lost) ∧
        ∀ b', r = some b' → SameBlock b b' ∧ b'.At b.addr l) :
    Inserted al j FIND s l lost (insertGrown al j cnt n f) := by
  have hnew : addSz j.size (mulSz cnt n) = l.length := by
    rw [mulSz_eq (by omega), addSz_eq (by rw [hs.content.size]; omega), hs.content.size, hlen]
  rw [insertGrown]
  simp only [hnew, addSz_eq hfit]
  rcases @reservealways_cases al j (l.length + 1) hs.content.backed with
    ⟨hr, hlt⟩ | ⟨hr, href⟩ | ⟨j', hr, hg⟩
  · rw [hr]
    exact ⟨rfl, hlt⟩
  · rw [hr]
    exact ⟨hs, hcnt, .inl ⟨rfl, href⟩⟩
  · obtain ⟨hs', b', hd', hroom⟩ := hs.grown hg
    obtain ⟨b, hh, hat⟩ := hs'.holds
    obtain rfl : b' = b := Option.some.inj (hd'.symm.trans hh.data)
    obtain ⟨r, hrun, hlost, hr'⟩ := hf j' b' hr hh hroom
    rw [hr]
    simp only [orErr, JstrTy.deref, hh.data, bind, Except.bind, hrun]
    cases r with
    | none => exact ⟨hs', hcnt, .inr (hlost rfl)⟩
    | some b =>
        obtain ⟨hb, hl⟩ := hr' b rfl
        have hin : b.InRange (b.addr + l.length) 1 := ⟨by omega, by rw [hb.2]; omega⟩
        simp only [@Blk.write_eq b (b.addr + l.length) [0] hin]
        refine ⟨_, rfl, ?_, rfl, ?_⟩
        · rw [Memory.Block.put_size, hb.2, hh.backed]
        · rw [Memory.Block.put_addr]
          refine Memory.Block.at_append.mpr ⟨?_, Memory.Block.at_put hin⟩
          rw [hb.1]
          exact hl.put_of_disjoint (.inl (le_refl _))

/-- The allocator does not answer with the null pointer. -/
def Alloc.NonNull (al : Alloc) : Prop := ∀ o m b, al.realloc o m = some b → 0 < b.addr

/-- A text in a grown block, before anything is moved. -/
theorem backward_start {b : Blk} {n : Nat} (hat : b.At b.addr s)
    (hroom : s.length + n + 1 ≤ b.size) : Backward b s [] (s.length + n) n where
  front := hat
  back := Memory.Block.at_nil ⟨Nat.le_add_right _ _, by omega⟩
  gap := rfl

theorem length_insert (ps : List Bytes) (src tail : Bytes) :
    (joinWith (FIND ++ src) ps tail).length
      = (joinWith FIND ps tail).length + ps.length * src.length := by
  have := length_joinWith (FIND ++ src) FIND tail ps
  rw [List.length_append, Nat.mul_add] at this
  omega

theorem insertafterallchrLen_spec {c : UInt8} {src : Bytes} (hs : Str j s) (hal : al.NonNull)
    (hfit : (replaceAll [c] ([c] ++ src) s).length + 1 ≤ sizeMax) :
    Inserted al j [c] s (replaceAll [c] ([c] ++ src) s) False
      (insertafterallchrLen cfg env al j c src) := by
  have hc : [c] ≠ [] := List.cons_ne_nil c []
  obtain ⟨b, hh, hat⟩ := hs.holds
  have hsz := hh.size
  rw [insertafterallchrLen]
  split
  · rename_i h0
    have hsame : replaceAll [c] ([c] ++ src) s = s := by
      rcases h0 with hsrc | hsize
      · rw [List.length_eq_zero_iff.mp hsrc, List.append_nil]
        exact replaceN_self [c] s.length s
      · rw [List.length_eq_zero_iff.mp (hsz.symm.trans hsize)]
        rfl
    rw [hsame]
    exact hs
  · have hcount := count_seeks hc (@seeks_memchr env c b (b.addr + s.length)) hh.content
    obtain ⟨ps, tail, -, hjoin, hrepl, hcnt, hcuts, hrest⟩ := exists_pieces hc s
    simp only [JstrTy.deref, hh.data, bind, Except.bind, hsz]
    rw [List.length_singleton] at hcount
    rw [hcount, hcnt]
    rw [hrepl] at hfit ⊢
    simp only
    split
    · rename_i h0
      rw [List.length_eq_zero_iff.mp h0] at hjoin ⊢
      rw [joinWith_nil] at hjoin ⊢
      rw [hjoin]
      exact hs
    · have hlen := @length_insert [c] ps src tail
      rw [hjoin] at hlen
      refine insertGrown_spec hs (by omega) hlen hfit fun j' b' hr hh' hroom => ?_
      obtain ⟨m, b₀, hreal, hd⟩ := reservealways_data hr
      obtain rfl : b₀ = b' := Option.some.inj (hd.symm.trans hh'.data)
      have hstart := @backward_start s b₀ (ps.length * src.length) hh'.content (by omega)
      have hps : ps.length < s.length + 1 := by
        have := countN_le [c] s.length s
        rw [show countN [c] s.length s = ps.length from hcnt] at this
        omega
      rw [← hlen, ← hjoin] at hstart
      rw [← hjoin] at hps
      obtain ⟨b₁, hrun, hb₁, hat₁⟩ := rebuildChr_spec ps (hal _ _ _ hreal) hstart
        (not_mem_of_cuts hcuts) (not_mem_of_search_none hrest) hps
      rw [List.append_nil] at hat₁
      rw [hh'.size, ← hjoin]
      refine ⟨some b₁, by rw [hrun]; rfl, (fun h => by cases h), fun b' hb' => ?_⟩
      cases hb'
      exact ⟨hb₁, hat₁⟩

theorem insertafterallLen_spec {malloc : Nat → Bool} {src : Bytes} (hs : Str j s)
    (hmem : MemAt env find FIND) (hfind : FIND ≠ [])
    (hap : ∀ b, j.data = some b → Apart b find FIND.length)
    (hal : AllocApart al find FIND.length)
    (hnull : al.NonNull)
    (hfit : (replaceAll FIND (FIND ++ src) s).length + 1 ≤ sizeMax)
    (hoffs : countAll FIND s * 8 ≤ sizeMax) :
    Inserted al j FIND s (replaceAll FIND (FIND ++ src) s)
      (FIND.length ≠ 1 ∧ malloc (countAll FIND s * 8) = false)
      (insertafterallLen cfg env al malloc j find FIND.length src) := by
  have hpos := List.length_pos_of_ne_nil hfind
  rw [insertafterallLen]
  by_cases h1 : FIND.length = 1
  · obtain ⟨c, rfl⟩ := List.length_eq_one_iff.mp h1
    rw [if_pos h1, memAt_head hmem rfl]
    exact (insertafterallchrLen_spec hs hnull hfit).mono False.elim
  rw [if_neg h1, if_neg (by omega)]
  obtain ⟨b, hh, hat⟩ := hs.holds
  obtain ⟨t, hcomp, ht⟩ := memmemComp_prepared cfg hmem cfg.uninitTable
  have hneedle : Needle cfg env j t find FIND := ⟨ht, hmem, hfind, hap⟩
  have hcount := count_seeks hfind
    (seeks_memmem ht hmem (hap b hh.data) (b.addr + s.length)) hh.content
  obtain ⟨ps, tail, hsplit, hjoin, hrepl, hcnt, hcuts, hrest⟩ := exists_pieces hfind s
  simp only [hcomp, JstrTy.deref, hh.data, bind, Except.bind, hh.size, hcount, hcnt]
  rw [hrepl] at hfit ⊢
  rw [hcnt] at hoffs
  split
  · rename_i h0
    rw [List.length_eq_zero_iff.mp h0] at hjoin ⊢
    rw [joinWith_nil] at hjoin ⊢
    rw [hjoin]
    exact hs
  · have hlen := @length_insert FIND ps src tail
    rw [hjoin] at hlen
    refine insertGrown_spec hs (by omega) hlen hfit fun j' b' hr hh' hroom => ?_
    split
    · have hneedle' := hneedle.moved hal (.inr (reservealways_data hr))
      have hseek := seeks_memmem ht hmem (hneedle'.apart b' hh'.data) (b'.addr + s.length)
      have hroom8 : mulSz ps.length 8 / 8 = ps.length := by
        rw [mulSz_eq hoffs, Nat.mul_div_cancel _ (by decide)]
      have hrec := @recordOffs_spec (nextMemmem cfg env t find FIND.length (b'.addr + s.length) b')
        FIND s b'.addr ps.length hfind (hseek.next hh'.content) (s.length + 1) 0 []
        (Nat.zero_le _) (by omega) (by
          rw [List.length_nil, List.drop_zero, countN, hsplit, Nat.zero_add])
      simp only [List.drop_zero, hsplit, List.nil_append, Nat.add_zero] at hrec
      have hstart := @backward_start s b' (ps.length * src.length) hh'.content (by omega)
      rw [← hlen, ← hjoin] at hstart
      obtain ⟨b₁, hrun, hb₁, hat₁⟩ := rebuild_spec [] ps hstart
      rw [List.append_nil] at hat₁ hrun
      rw [hjoin] at hrun
      refine ⟨some b₁, ?_, (fun h => by cases h), fun b' hb' => by cases hb'; exact ⟨hb₁, hat₁⟩⟩
      simp only [hh'.size, hroom8, hrec, hrun, pure, Except.pure]
    · rename_i hno
      refine ⟨none, rfl, fun _ => ⟨h1, ?_⟩, fun b' hb' => by cases hb'⟩
      rwa [mulSz_eq hoffs, Bool.not_eq_true] at hno

/-- Two records with the same string agree byte for byte, up to the
terminator. -/
theorem Str.agree {j₁ j₂ : JstrTy} {l : Bytes} (h₁ : Str j₁ l) (h₂ : Str j₂ l) :
    j₁.size = j₂.size ∧ ∀ i ≤ j₁.size, j₁.byte? i = j₂.byte? i := by
  obtain ⟨b₁, hd₁, _, hs₁, hat₁⟩ := h₁
  obtain ⟨b₂, hd₂, _, hs₂, hat₂⟩ := h₂
  refine ⟨hs₁.trans hs₂.symm, fun i hi => ?_⟩
  have hlt : i < (l ++ [0]).length := by
    rw [List.length_append, List.length_singleton]
    omega
  rw [JstrTy.byte?, JstrTy.byte?, hd₁, hd₂, Option.bind_some, Option.bind_some, hat₁.2 i hlt,
    hat₂.2 i hlt]

/-- The rebuild from the end and the forward replacement on a copy leave
the same bytes: the text with `src` behind every match, terminated. -/
theorem insertafterallLen_eq_rplcallLen (cfg : Build) (malloc : Nat → Bool) (src : Bytes)
    (hs : Str j s) (hnul : 0 ∉ s) (hmem : MemAt env find FIND) (hfind : FIND ≠ [])
    (hap : ∀ b, j.data = some b → Apart b find FIND.length)
    (hal : AllocApart al find FIND.length) (hnull : al.NonNull)
    (hfit : (replaceAll FIND (FIND ++ src) s).length + 1 ≤ sizeMax)
    (hoffs : countAll FIND s * 8 ≤ sizeMax) :
    Inserted al j FIND s (replaceAll FIND (FIND ++ src) s)
        (FIND.length ≠ 1 ∧ malloc (countAll FIND s * 8) = false)
        (insertafterallLen cfg env al malloc j find FIND.length src) ∧
      ∀ (j' : JstrTy) (al' : Alloc), Str j' s →
        (∀ b, j'.data = some b → Apart b find FIND.length) →
        AllocApart al' find FIND.length →
        s.length + (replaceAll FIND (FIND ++ src) s).length + 1 ≤ sizeMax →
        ∀ j₁ j₂ r, insertafterallLen cfg env al malloc j find FIND.length src = .ok (.succ, j₁) →
          rplcallLen cfg env al' j' find FIND.length (FIND ++ src) = .ok (r, j₂) → r ≠ sizeMax →
          j₁.size = j₂.size ∧ ∀ i ≤ j₁.size, j₁.byte? i = j₂.byte? i := by
  have hins := @insertafterallLen_spec cfg env al j s FIND find malloc src hs hmem hfind hap hal
    hnull hfit hoffs
  refine ⟨hins, fun j' al' hs' hap' hal' hfit' j₁ j₂ r h₁ h₂ hr => ?_⟩
  have hrepl := @rplcallLen_spec cfg env al' j' find s FIND (FIND ++ src) hs' hnul hmem hfind hap'
    hal' hfit'
  rw [h₁] at hins
  rw [h₂] at hrepl
  rcases hrepl with ⟨herr, -⟩ | ⟨-, hstr⟩
  · exact absurd herr hr
  · exact hins.agree hstr

/-- "ab" behind every "b" of "abb". -/
theorem insertafterallLen_eq_rplcallLen_abb :
    Inserted (Alloc.filling 4096 0) ⟨some ⟨64, [97, 98, 98, 0]⟩, 3, 4⟩ [98] [97, 98, 98]
        [97, 98, 97, 98, 98, 97, 98] (1 ≠ 1 ∧ true = false)
        (insertafterallLen sse2Build (memOf [98]) (Alloc.filling 4096 0) (fun _ => true)
          ⟨some ⟨64, [97, 98, 98, 0]⟩, 3, 4⟩ 0 1 [97, 98]) ∧
      ∀ (j' : JstrTy) (al' : Alloc), Str j' [97, 98, 98] →
        (∀ b, j'.data = some b → Apart b 0 1) → AllocApart al' 0 1 → 3 + 7 + 1 ≤ sizeMax →
        ∀ j₁ j₂ r, insertafterallLen sse2Build (memOf [98]) (Alloc.filling 4096 0) (fun _ => true)
            ⟨some ⟨64, [97, 98, 98, 0]⟩, 3, 4⟩ 0 1 [97, 98] = .ok (.succ, j₁) →
          rplcallLen sse2Build (memOf [98]) al' j' 0 1 [98, 97, 98] = .ok (r, j₂) → r ≠ sizeMax →
          j₁.size = j₂.size ∧ ∀ i ≤ j₁.size, j₁.byte? i = j₂.byte? i := by
  have hat : Memory.Block.At (⟨64, [97, 98, 98, 0]⟩ : Blk) 64 ([97, 98, 98] ++ [0]) :=
    ⟨by decide, by decide⟩
  refine @insertafterallLen_eq_rplcallLen (memOf [98]) (Alloc.filling 4096 0) _ [97, 98, 98] [98] 0
    sse2Build (fun _ => true) [97, 98] ⟨_, rfl, rfl, rfl, hat⟩ (by decide) (by decide) (by decide)
    ?_ ?_ ?_ (by decide) (by decide)
  · intro b hb
    cases hb
    exact .inl (by decide)
  · intro o m b hb
    cases hb
    exact .inl (show 1 ≤ 4096 by decide)
  · intro o m b hb
    cases hb
    exact show 0 < 4096 by decide

end Whole

end Jstr
