import BlockCache.Fault
import BlockCache.Memory.Footprint
import BlockCache.Text.Quoted
import BlockCache.Text.Record

/-!
# Error — why a cache is not built or an item is not stored

Four kinds of error. `Refusal` tells the reasons for a bad argument apart; `message` and `text`
give the two written forms of an error. Where a fault may stop a creation too, a `Failure` is one
or the other.
-/

namespace BlockCache

/-- The smallest budget a cache accepts, in bytes. -/
def minTotalLength : Nat := 512

/-- The accepted share of entries, in percent, with both ends. -/
def entryPercentageRange : Nat × Nat := (5, 95)

/-! ## Bad arguments -/

inductive Refusal
  | chainLength
  | entryPercentage (given : Nat)
  | budgetTooSmall (total : Nat)
  | layoutOverflow (total : Nat)
  | noEntries (total : Nat)
  | noStore (entries bins needed total : Nat)
  | tooManyEntries (entries : Nat)
  | binCount (bins : Nat)
  | storeLength (length : Nat)
  | emptyItem
  /-- A reason in the caller's own words. -/
  | other (reason : String)
  deriving DecidableEq, Repr

def Refusal.message : Refusal → String
  | chainLength => "hash_chain_length must be >= 1"
  | entryPercentage given =>
      let low := entryPercentageRange.1
      let high := entryPercentageRange.2
      s!"nentries_percentage must be within {low}..={high}, got {given}"
  | budgetTooSmall total => s!"total length {total} is below the minimum of {minTotalLength}"
  | layoutOverflow total => s!"layout arithmetic overflows for {total} bytes"
  | noEntries total => s!"total length {total} leaves no room for entries"
  | noStore entries bins needed total =>
      s!"directory for {entries} entries and {bins} bins needs {needed} of " ++
        s!"{total} bytes, leaving no store"
  | tooManyEntries entries => s!"{entries} entries exceed the addressable pool size"
  | binCount bins => s!"bin count {bins} is not a power of two"
  | storeLength length => s!"store length {length} is not a positive multiple of {granule}"
  | emptyItem => "cannot cache an empty item"
  | other reason => reason

/-! ## Errors -/

inductive CacheError
  | outOfMemory (bytes : Nat)
  | badArgument (reason : Refusal)
  | nullArgument (name : String)
  | tooBig (length maxLength : Nat)
  deriving DecidableEq, Repr

namespace CacheError

def kind : CacheError → String
  | outOfMemory _ => "OutOfMemory"
  | badArgument _ => "BadArgument"
  | nullArgument _ => "NullArgument"
  | tooBig _ _ => "TooBig"

def message : CacheError → String
  | outOfMemory bytes => s!"out of memory: could not reserve {bytes} bytes"
  | badArgument reason => "bad argument: " ++ reason.message
  | nullArgument name => "missing argument: " ++ name
  | tooBig length maxLength =>
      s!"item of {length} bytes exceeds the store capacity of {maxLength} bytes"

/-- The error as a value: its kind with what it carries. -/
def text (e : CacheError) : String :=
  match e with
  | outOfMemory bytes => e.kind ++ "(" ++ toString bytes ++ ")"
  | badArgument reason => e.kind ++ "(" ++ Text.quote reason.message ++ ")"
  | nullArgument name => e.kind ++ "(" ++ Text.quote name ++ ")"
  | tooBig length maxLength =>
      Text.record e.kind [("length", toString length), ("max_length", toString maxLength)]

end CacheError

/-! ## Failures -/

/-- Why nothing was built. -/
inductive Failure
  | error (e : CacheError)
  | fault (f : Fault)
  deriving DecidableEq, Repr

end BlockCache
