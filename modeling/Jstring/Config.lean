import Jstring.Simd
import Jstring.TwoWay

/-!
# One build of the library

The preprocessor switches the modelled functions depend on, and what
their uninitialised locals happen to hold. Every result holds for every
value of this record.
-/

namespace Jstr

/-- The instruction set picked in `include/internal/simd.h`. -/
inductive VecSize where
  | sse2
  | avx2
  | avx512
  deriving DecidableEq, Repr, Inhabited

/-- `sizeof(jstr_vvec_ty)`. -/
def VecSize.bytes : VecSize → Nat
  | .sse2 => 16
  | .avx2 => 32
  | .avx512 => 64

structure Build where
  /-- `JSTR_HAVE_SIMD`, with the vector size -/
  haveSimd : Option VecSize
  /-- `JSTR_HAVENT_MEMMEM_SIMD` -/
  haventMemmemSimd : Bool
  /-- `JSTR_HAVENT_MEMCASECHR_SIMD` -/
  haventMemcasechrSimd : Bool
  /-- `JSTR_HAVENT_STRCASECHRNUL_SIMD` -/
  haventStrcasechrnulSimd : Bool
  /-- `JSTR_HAVENT_MEMRCHR_SIMD` -/
  haventMemrchrSimd : Bool
  /-- `JSTR_HAVENT_COUNTCHR_SIMD` -/
  haventCountchrSimd : Bool
  /-- `JSTR_HAVENT_COUNTCHR_LEN_SIMD` -/
  haventCountchrLenSimd : Bool
  /-- the compiler half of `JSTR_USE_COUNTCHR_LEN_C` -/
  useCountchrLenC : Bool
  /-- `JSTR_TEST` -/
  test : Bool
  /-- `JSTR_USE_MEMMEM_LIBC` -/
  useMemmemLibc : Bool
  /-- `JSTR_HAVE_MEMRCHR` -/
  haveMemrchr : Bool
  /-- `JSTR_HAVE_STRCSPN_OPTIMIZED` -/
  haveStrcspnOptimized : Bool
  /-- `JSTR_HAVE_STRCASESTR_OPTIMIZED` -/
  haveStrcasestrOptimized : Bool
  /-- `JSTR_HAVE_STRNCASECMP` -/
  haveStrncasecmp : Bool
  /-- `JSTR_HAVE_ATTR_MAY_ALIAS` -/
  haveAttrMayAlias : Bool
  /-- an uninitialised `jstr_vvec_ty` -/
  uninitVec : Vec
  /-- an uninitialised `jstr_twoway_ty` -/
  uninitTable : TwowayTy
  deriving Inhabited

/-- An x86-64 build without further switches. -/
def sse2Build : Build := { (default : Build) with haveSimd := some .sse2 }

/-- `JSTR_HAVE_SIMD && !JSTR_HAVENT_MEMMEM_SIMD`. -/
def Build.memmemSimd (cfg : Build) : Option VecSize :=
  if cfg.haventMemmemSimd then none else cfg.haveSimd

/-- `JSTR_HAVE_SIMD && !JSTR_HAVENT_MEMCASECHR_SIMD`. -/
def Build.memcasechrSimd (cfg : Build) : Option VecSize :=
  if cfg.haventMemcasechrSimd then none else cfg.haveSimd

/-- `JSTR_HAVE_SIMD && !JSTR_HAVENT_STRCASECHRNUL_SIMD`. -/
def Build.strcasechrnulSimd (cfg : Build) : Option VecSize :=
  if cfg.haventStrcasechrnulSimd then none else cfg.haveSimd

/-- `JSTR_HAVE_SIMD && !JSTR_HAVENT_MEMRCHR_SIMD`. -/
def Build.memrchrSimd (cfg : Build) : Option VecSize :=
  if cfg.haventMemrchrSimd then none else cfg.haveSimd

/-- `JSTR_HAVE_SIMD && !JSTR_HAVENT_COUNTCHR_SIMD`. -/
def Build.countchrSimd (cfg : Build) : Option VecSize :=
  if cfg.haventCountchrSimd then none else cfg.haveSimd

/-- `!JSTR_USE_COUNTCHR_LEN_C`. -/
def Build.countchrLenSimd (cfg : Build) : Option VecSize :=
  if cfg.useCountchrLenC || cfg.haventCountchrLenSimd then none else cfg.haveSimd

theorem VecSize.bytes_pos (v : VecSize) : 0 < v.bytes := by cases v <;> decide

end Jstr
