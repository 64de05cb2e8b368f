import Jstring.Lib.Factorization
import Jstring.Lib.MaxSuffix
import Jstring.Lib.Shift
import Jstring.Lib.Occurrence
import Jstring.Lib.Splitting
import Jstring.Lib.Packed
import Jstring.Lib.Bits
import Jstring.Lib.HasZero
import Jstring.Lib.Block
import Jstring.Mem
import Jstring.Ctype
import Jstring.Libc
import Jstring.TwoWay
import Jstring.TwoWayComp
import Jstring.TwoWayExec
import Jstring.StrstrLt8
import Jstring.Simd
import Jstring.Config
import Jstring.Chr
import Jstring.Strnchr
import Jstring.Memmem
import Jstring.Strcasestr
import Jstring.Builder
import Jstring.Reserve
import Jstring.Calls
import Jstring.Insert
import Jstring.Place
import Jstring.Repeat
import Jstring.Replace
import Jstring.ReplaceGrow
import Jstring.Count
import Jstring.Stores
import Jstring.Memrchr
import Jstring.Memrmem
import Jstring.Scans
import Jstring.Lib.Traced
import Jstring.Loads
import Jstring.MemmemLoads
import Jstring.InsertAfterAll
import Jstring.Backref
import Jstring.Lib.Splice
import Jstring.Lib.Numeral
import Jstring.Itoa
import Jstring.ItoaText
import Jstring.Atoi
import Jstring.Thousep
import Jstring.Unescape
import Jstring.Lib.Traversal
import Jstring.Ftw
import Jstring.FtwSteps
import Jstring.FtwReads
import Jstring.FtwPaths
import Jstring.FtwStart
import Jstring.FtwErrors
import Jstring.FtwBounds
import Jstring.FtwOrder
import Jstring.Regex
import Jstring.RegexRplc
import Jstring.RegexErrors
import Jstring.RegexIdentity
import Jstring.ReplaceLast
import Jstring.Lib.Bitset
import Jstring.Spans
import Jstring.Cmpeq
import Jstring.Chrnul
import Jstring.Chrinv
import Jstring.Strip
import Jstring.Lib.Yields
import Jstring.Lines
import Jstring.Strtok
import Jstring.WriteFile
import Jstring.Tilde
import Jstring.ReadStdin
import Jstring.TwoWayLoads
import Jstring.Lib.Machine
import Jstring.Lib.Printf
import Jstring.VsprintfMaxlen
import Jstring.VsprintfRoom
import Jstring.Trim
import Jstring.Reverse
import Jstring.Tokens
import Jstring.Linenumber
import Jstring.Rplcspn
import Jstring.Rplcchr
import Jstring.RegexLiteral
import Jstring.Sprintf
import Jstring.Files
import Jstring.ReadSystem
import Jstring.Edits
import Jstring.Numbers
import Jstring.Casecmp
import Jstring.Affix
import Jstring.Paths
import Jstring.Binary
import Jstring.Rspans
import Jstring.Casecopy
import Jstring.Remove
import Jstring.Streams
import Jstring.Chains
