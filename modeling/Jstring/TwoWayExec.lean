import Jstring.TwoWayComp

/-!
# The two-way search finds the leftmost occurrence

`Progress` is the invariant of the search loop: no occurrence starts
before the current position, and the remembered prefix matches - it is
either empty or what a shift by the global period left behind.
`execRound_spec` is the step lemma, one case for each way a round ends;
`execLoop_spec` the run lemma for both kinds of haystack ends.
-/

namespace Jstr

open Words

section Search

variable {canon : UInt8 → UInt8} {mem : Mem} {t : TwowayTy} {ne c : Nat}

theorem rightHalf_spec {hs : Nat} : ∀ (n k : Nat),
    k ≤ rightHalf canon mem hs ne n k ∧ rightHalf canon mem hs ne n k ≤ k + n ∧
    (∀ i, k ≤ i → i < rightHalf canon mem hs ne n k →
      canon (mem (hs + i)) = canon (mem (ne + i))) ∧
    (rightHalf canon mem hs ne n k < k + n →
      canon (mem (hs + rightHalf canon mem hs ne n k))
        ≠ canon (mem (ne + rightHalf canon mem hs ne n k)))
  | 0, k => by
      unfold rightHalf
      exact ⟨Nat.le_refl k, Nat.le_refl k, fun i h1 h2 => by omega, fun h => by omega⟩
  | n + 1, k => by
      unfold rightHalf
      by_cases heq : canon (mem (ne + k)) = canon (mem (hs + k))
      · rw [if_pos heq]
        obtain ⟨h1, h2, h3, h4⟩ := rightHalf_spec n (k + 1)
        refine ⟨by omega, by omega, fun i hki hi => ?_, fun h => h4 (by omega)⟩
        rcases Nat.lt_or_eq_of_le hki with hlt | rfl
        · exact h3 i hlt hi
        · exact heq.symm
      · rw [if_neg heq]
        exact ⟨Nat.le_refl k, by omega, fun i h1 h2 => by omega, fun _ h => heq h.symm⟩

theorem leftHalf_spec {hs memory : Nat} : ∀ k : Nat,
    (∀ i, max memory (leftHalf canon mem hs ne memory k) ≤ i → i < k →
      canon (mem (hs + i)) = canon (mem (ne + i))) ∧
    (memory < leftHalf canon mem hs ne memory k → leftHalf canon mem hs ne memory k ≤ k ∧
      canon (mem (hs + (leftHalf canon mem hs ne memory k - 1)))
        ≠ canon (mem (ne + (leftHalf canon mem hs ne memory k - 1))))
  | 0 => by
      unfold leftHalf
      exact ⟨fun i _ h => absurd h (Nat.not_lt_zero i), fun h => absurd h (Nat.not_lt_zero _)⟩
  | k + 1 => by
      unfold leftHalf
      by_cases hgo : memory < k + 1 ∧ canon (mem (ne + k)) = canon (mem (hs + k))
      · rw [if_pos hgo]
        obtain ⟨h1, h2⟩ := leftHalf_spec k
        refine ⟨fun i hi hik => ?_, fun h => ⟨by have := (h2 h).1; omega, (h2 h).2⟩⟩
        rcases Nat.lt_succ_iff_lt_or_eq.mp hik with hlt | rfl
        · exact h1 i hi hlt
        · exact hgo.2.symm
      · rw [if_neg hgo]
        refine ⟨fun i hi hik => by omega, fun h => ⟨Nat.le_refl _, ?_⟩⟩
        exact fun heq => hgo ⟨h, heq.symm⟩

/-! ## One round -/

/-- The invariant at offset `h` of a haystack with letters `y`. -/
structure Progress (x y : Nat → UInt8) (t : TwowayTy) (c h memory : Nat) : Prop where
  before : ∀ j < h, ¬Matches x t.needleLen y j
  known : MatchesOn x y h 0 memory
  behind : memory = 0 ∨ ∃ h', h' + t.globalPeriod = h ∧
    memory = t.needleLen - t.globalPeriod ∧ Period x t.needleLen t.globalPeriod ∧
    MatchesOn x y h' c t.needleLen

theorem Progress.memory_lt {x y : Nat → UInt8} {h memory : Nat}
    (hp : Progress x y t c h memory) (ht : Compiled x t c) : memory < t.needleLen := by
  have hpos := ht.pos
  have hcut := ht.cut
  rcases hp.behind with h0 | ⟨h', -, hmem, -⟩
  · omega
  · omega

/-- A shift over positions that cannot match, forgetting the prefix. -/
theorem Progress.skip {x y : Nat → UInt8} {h memory k : Nat}
    (hp : Progress x y t c h memory) (hk : ∀ s < k, ¬Matches x t.needleLen y (h + s)) :
    Progress x y t c (h + k) 0 where
  before := by
    intro j hj
    by_cases hjh : j < h
    · exact hp.before j hjh
    · have := hk (j - h) (by omega)
      rwa [show h + (j - h) = j by omega] at this
  known := fun i _ hi => absurd hi (Nat.not_lt_zero i)
  behind := Or.inl rfl

variable {hs₀ h h₁ memory : Nat}

/-- What one round guarantees. -/
def RoundOk (x y : Nat → UInt8) (t : TwowayTy) (c h : Nat) : Round → Prop
  | .found => Matches x t.needleLen y h
  | .advance k memory => 0 < k ∧ k ≤ t.needleLen ∧ Progress x y t c (h + k) memory

/-- The last letter does not occur in the needle, or further left only. -/
theorem roundOk_last (ht : Compiled (letters canon mem ne) t c)
    (hp : Progress (letters canon mem ne) (letters canon mem hs₀) t c h memory)
    {k : Nat} (hk0 : 0 < k) (hkl : k ≤ t.needleLen)
    (hk : ∀ s < k, ¬Matches (letters canon mem ne)
      t.needleLen (letters canon mem hs₀) (h + s))
    (hlast : canon (mem (hs₀ + (h + (t.needleLen - 1))))
      ≠ canon (mem (ne + (t.needleLen - 1)))) :
    RoundOk (letters canon mem ne) (letters canon mem hs₀) t c h
      (.advance (if k < memory then memory else k) 0) := by
  have hmem := hp.memory_lt ht
  by_cases hkm : k < memory
  · rw [if_pos hkm]
    refine ⟨by omega, by omega, hp.skip fun s hs => ?_⟩
    rcases hp.behind with h0 | ⟨h', rfl, hmem', hper, hright⟩
    · omega
    · exact not_matches_of_prefix ht.crit hright hper hlast (by omega)
  · rw [if_neg hkm]
    exact ⟨hk0, hkl, hp.skip hk⟩

/-- A mismatch in the right half, behind the matched letters `[c, k)`. -/
theorem roundOk_right (ht : Compiled (letters canon mem ne) t c)
    (hp : Progress (letters canon mem ne) (letters canon mem hs₀) t c h memory)
    {k : Nat} (hck : c ≤ k) (hkl : k < t.needleLen)
    (hright : MatchesOn (letters canon mem ne) (letters canon mem hs₀) h c k)
    (hne : canon (mem (hs₀ + (h + k))) ≠ canon (mem (ne + k))) :
    RoundOk (letters canon mem ne) (letters canon mem hs₀) t c h
      (.advance (k - t.suffix).toNat 0) := by
  have hsuf := ht.suffix
  exact ⟨by omega, by omega, hp.skip fun s hs =>
    not_matches_of_right ht.crit hright hkl hck hne (by omega)⟩

/-- A mismatch in the left half, the right half matched. -/
theorem roundOk_left (ht : Compiled (letters canon mem ne) t c)
    (hp : Progress (letters canon mem ne) (letters canon mem hs₀) t c h memory)
    (hright : MatchesOn (letters canon mem ne) (letters canon mem hs₀)
      h c t.needleLen)
    (hne : ¬Matches (letters canon mem ne)
      t.needleLen (letters canon mem hs₀) h) :
    RoundOk (letters canon mem ne) (letters canon mem hs₀) t c h
      (.advance t.globalPeriod t.memory0) := by
  have hskip : Progress (letters canon mem ne) (letters canon mem hs₀)
      t c (h + t.globalPeriod) 0 := by
    refine hp.skip fun s hs => ?_
    rcases Nat.eq_zero_or_pos s with rfl | hs0
    · exact hne
    · exact not_matches_of_left ht.crit hright ht.period_le hs0 hs
  refine ⟨ht.pos, ht.period_le_length, ?_⟩
  rcases ht.memory with h0 | ⟨hper, hm⟩
  · rw [h0]; exact hskip
  · rw [hm]
    exact ⟨hskip.before, matchesOn_shift ht.crit ht.pos hright hper,
      Or.inr ⟨h, rfl, rfl, hper, hright⟩⟩

/-- Both halves, with the last letter in place. -/
theorem roundOk_halves (ht : Compiled (letters canon mem ne) t c)
    (hp : Progress (letters canon mem ne) (letters canon mem hs₀) t c h memory)
    {k k' : Nat}
    (hk : k = rightHalf canon mem (hs₀ + h) ne (t.needleLen - max c memory) (max c memory))
    (hk' : k' = leftHalf canon mem (hs₀ + h) ne memory c) :
    RoundOk (letters canon mem ne) (letters canon mem hs₀) t c h
      (if k < t.needleLen then .advance (k - t.suffix).toNat 0
      else if k' ≤ memory then .found else .advance t.globalPeriod t.memory0) := by
  have hcut := ht.cut
  have hmem := hp.memory_lt ht
  obtain ⟨hr1, hr2, hr3, hr4⟩ :=
    @rightHalf_spec canon mem ne (hs₀ + h) (t.needleLen - max c memory) (max c memory)
  obtain ⟨hl1, hl2⟩ := @leftHalf_spec canon mem ne (hs₀ + h) memory c
  rw [← hk] at hr1 hr2 hr3 hr4
  rw [← hk'] at hl1 hl2
  simp only [Nat.add_assoc] at hr3 hr4 hl1 hl2
  have hright : MatchesOn (letters canon mem ne) (letters canon mem hs₀)
      h c k := by
    intro i hci hik
    by_cases him : i < memory
    · exact hp.known i (Nat.zero_le i) him
    · exact hr3 i (by omega) hik
  by_cases hkl : k < t.needleLen
  · rw [if_pos hkl]
    exact roundOk_right ht hp (by omega) hkl hright (hr4 (by omega))
  · rw [if_neg hkl]
    have hk : k = t.needleLen := by omega
    subst hk
    by_cases hkm : k' ≤ memory
    · rw [if_pos hkm]
      intro i hi
      by_cases him : i < memory
      · exact hp.known i (Nat.zero_le i) him
      · by_cases hic : i < c
        · exact hl1 i (by omega) hic
        · exact hright i (by omega) hi
    · rw [if_neg hkm]
      obtain ⟨hkc, hne⟩ := hl2 (by omega)
      exact roundOk_left ht hp hright fun hocc => hne (hocc (k' - 1) (by omega))

theorem execRound_spec (ht : Compiled (letters canon mem ne) t c)
    (hp : Progress (letters canon mem ne) (letters canon mem hs₀) t c h memory) :
    RoundOk (letters canon mem ne) (letters canon mem hs₀) t c h
      (execRound canon mem t ne (hs₀ + h) memory) := by
  have hcut := ht.cut
  have hsuf : (t.suffix + 1).toNat = c := by have := ht.suffix; omega
  simp only [execRound, hsuf]
  rw [show hs₀ + h + t.needleLen - 1 = hs₀ + (h + (t.needleLen - 1)) by omega]
  generalize hlast : canon (mem (hs₀ + (h + (t.needleLen - 1)))) = a
  -- an occurrence `s` further has the letter `a` at `needleLen - 1 - s`
  have hocc : ∀ s < t.needleLen, Matches (letters canon mem ne)
      t.needleLen (letters canon mem hs₀) (h + s) →
      canon (mem (ne + (t.needleLen - 1 - s))) = a := by
    intro s hs hocc
    have h1 := hocc (t.needleLen - 1 - s) (by omega)
    simp only [show h + s + (t.needleLen - 1 - s) = h + (t.needleLen - 1) by omega] at h1
    exact h1.symm.trans hlast
  by_cases hbyte : t.byteset a = true
  · rw [if_pos hbyte]
    have hshift : ∀ i < t.needleLen, canon (mem (ne + i)) = a → i < t.shift a :=
      fun i hi heq => heq ▸ ht.filled.lt_shift i hi
    by_cases hk0 : t.needleLen - t.shift a ≠ 0
    · rw [if_pos hk0]
      refine roundOk_last ht hp (Nat.pos_of_ne_zero hk0) (Nat.sub_le _ _)
        (fun s hs hm => ?_) fun heq => ?_
      · have := hshift (t.needleLen - 1 - s) (by omega) (hocc s (by omega) hm)
        omega
      · have := hshift (t.needleLen - 1) (by omega) (heq.symm.trans hlast)
        omega
    · rw [if_neg hk0]
      exact roundOk_halves ht hp rfl rfl
  · rw [if_neg hbyte]
    refine ⟨by omega, Nat.le_refl _, hp.skip fun s hs hm => hbyte ?_⟩
    exact (ht.filled.byteset a).mpr ⟨t.needleLen - 1 - s, by omega, hocc s hs hm⟩

/-! ## The search loop -/

/-- Where the haystack of `hl` bytes ends: at a given length, or at its
terminator, which the search approaches as it goes. -/
def EndOk (checkEol : Bool) (mem : Mem) (hs₀ hl e : Nat) : Prop :=
  if checkEol then e ≤ hl ∧ (∀ i < hl, mem (hs₀ + i) ≠ 0) ∧ mem (hs₀ + hl) = 0
  else e = hl

theorem EndOk.le {checkEol : Bool} {hl e : Nat} (h : EndOk checkEol mem hs₀ hl e) :
    e ≤ hl := by
  cases checkEol with
  | true => exact h.1
  | false => exact Nat.le_of_eq h

/-- Updating the end: afterwards, too little left means that too little is
left of the haystack itself. -/
theorem EndOk.refill {checkEol : Bool} {hl e n l : Nat} (h : EndOk checkEol mem hs₀ hl e)
    (he : h₁ ≤ e) (hn : l ≤ n) :
    ∃ e', (if checkEol ∧ subSz (hs₀ + e) (hs₀ + h₁) < l then
        hs₀ + e + strnlen mem (hs₀ + e) n else hs₀ + e) = hs₀ + e' ∧
      h₁ ≤ e' ∧ EndOk checkEol mem hs₀ hl e' ∧ (e' - h₁ < l → hl - h₁ < l) := by
  cases checkEol with
  | false =>
      refine ⟨e, by simp, he, h, fun hl' => ?_⟩
      rwa [← show e = hl from h]
  | true =>
      obtain ⟨hle, hne, h0⟩ := h
      rw [subSz_eq (by omega), show hs₀ + e - (hs₀ + h₁) = e - h₁ by omega]
      by_cases hshort : e - h₁ < l
      · have hlen : strnlen mem (hs₀ + e) n = min (hl - e) n := by
          refine strnlen_eq (fun i hi => ?_) ?_ n
          · rw [Nat.add_assoc]; exact hne _ (by omega)
          · rw [Nat.add_assoc, Nat.add_sub_cancel' hle]; exact h0
        rw [if_pos ⟨rfl, hshort⟩, hlen, Nat.add_assoc]
        exact ⟨_, rfl, by omega, ⟨by omega, hne, h0⟩, fun hl' => by omega⟩
      · rw [if_neg (by simp [hshort])]
        exact ⟨e, rfl, he, ⟨hle, hne, h0⟩, fun hl' => absurd hl' hshort⟩

theorem execLoop_spec {checkEol : Bool} {hl : Nat}
    (ht : Compiled (letters canon mem ne) t c) :
    ∀ (fuel h e memory : Nat), EndOk checkEol mem hs₀ hl e → h ≤ e → hl < fuel + h →
      Progress (letters canon mem ne) (letters canon mem hs₀) t c h memory →
      ∃ r, execLoop canon checkEol mem t ne fuel (hs₀ + e) (hs₀ + h) memory
          = .ok (r.map (hs₀ + ·)) ∧
        Leftmost (StandsAt canon mem hs₀ hl ne t.needleLen) r
  | 0, h, e, _, hend, he, hf, _ => by have := hend.le; omega
  | fuel + 1, h, e, memory, hend, he, hf, hp => by
      have hor : ∀ m, t.needleLen ≤ t.needleLen ||| m := fun m => Nat.left_le_or
      obtain ⟨e', hlast, he', hend', hshort⟩ := hend.refill he (hor 2048)
      simp only [execLoop, hlast]
      rw [subSz_eq (show hs₀ + h ≤ hs₀ + e' by omega),
        show hs₀ + e' - (hs₀ + h) = e' - h by omega]
      have hle := hend'.le
      have hstands : ∀ i, StandsAt canon mem hs₀ hl ne t.needleLen i →
          Matches (letters canon mem ne) t.needleLen (letters canon mem hs₀) i := by
        intro i hi k hk
        have := hi.2 k hk
        rwa [Nat.add_assoc] at this
      by_cases hstop : e' - h < t.needleLen
      · rw [if_pos hstop]
        refine ⟨none, rfl, fun i hi => ?_⟩
        by_cases hih : i < h
        · exact hp.before i hih (hstands i hi)
        · have := hshort hstop
          have := hi.1
          omega
      · rw [if_neg hstop]
        have hround := execRound_spec ht hp
        cases hr : execRound canon mem t ne (hs₀ + h) memory with
        | found =>
            rw [hr] at hround
            refine ⟨some h, rfl, ⟨by omega, fun k hk => ?_⟩,
              fun j hj hj' => hp.before j hj (hstands j hj')⟩
            rw [Nat.add_assoc]
            exact hround k hk
        | advance k m =>
            rw [hr] at hround
            obtain ⟨hk0, hkl, hp'⟩ := hround
            simp only [Nat.add_assoc]
            exact execLoop_spec ht fuel (h + k) e' m hend' (by omega) (by omega) hp'

theorem progress_start (x y : Nat → UInt8) (t : TwowayTy) (c : Nat) :
    Progress x y t c 0 0 where
  before := fun j hj => absurd hj (Nat.not_lt_zero j)
  known := fun i _ hi => absurd hi (Nat.not_lt_zero i)
  behind := Or.inl rfl

theorem muslExec_spec (ht : Compiled (letters canon mem ne) t c)
    {hs : Nat} {HS NE : Bytes} (hh : MemAt mem hs HS) (hn : MemAt mem ne NE)
    (hlen : t.needleLen = NE.length) :
    muslExec canon mem t hs HS.length ne
      = .ok ((search (NE.map canon) (HS.map canon)).map (hs + ·)) := by
  have hend : EndOk false mem hs HS.length HS.length := rfl
  obtain ⟨r, hr, hleft⟩ := execLoop_spec ht (HS.length + 1) 0 HS.length 0 hend
    (Nat.zero_le _) (by omega) (progress_start _ _ t c)
  rw [hlen] at hleft
  rw [muslExec, search_of_leftmost hh hn hleft]
  exact hr

theorem muslExecEol_spec (ht : Compiled (letters canon mem ne) t c)
    {hs : Nat} {HS NE : Bytes} (hh : CStr mem hs HS) (hn : MemAt mem ne NE)
    (hlen : t.needleLen = NE.length) :
    muslExecEol canon mem t hs ne
      = .ok ((search (NE.map canon) (HS.map canon)).map (hs + ·)) := by
  have hfits := hh.fits
  have hend : EndOk true mem hs HS.length (strnlen mem hs (t.needleLen ||| 512)) := by
    rw [strnlen_eq (fun i hi => hh.ne_zero hi) hh.nul]
    exact ⟨Nat.min_le_left _ _, fun i hi => hh.ne_zero hi, hh.nul⟩
  obtain ⟨r, hr, hleft⟩ := execLoop_spec ht (sizeMax + 1) 0 _ 0 hend
    (Nat.zero_le _) (by omega) (progress_start _ _ t c)
  rw [hlen] at hleft
  rw [muslExecEol, search_of_leftmost hh.bytes hn hleft]
  exact hr

end Search

end Jstr
