import BlockCache.Directory.Hash

/-!
# Event — what a cache reports while it works

Events are values. Each has a level, a message and named fields; evictions are reported at the
finer level.
-/

namespace BlockCache

/-- What an eviction reclaimed. -/
structure Eviction where
  id : Nat
  bin : Nat
  key : UInt32
  offset : Nat
  length : Nat
  time : Nat
  deriving DecidableEq, Repr

inductive Event
  | constructed (totalLength entryCount binCount storeOffset storeLength : Nat) (owned : Bool)
  | destroyed (owned : Bool) (len : Nat)
  | rejected (key : UInt32) (length maxLength : Nat)
  | emptied (storeLength : Nat)
  | evicted (eviction : Eviction)
  deriving DecidableEq, Repr

inductive FieldValue
  | number (n : Nat)
  | flag (b : Bool)
  deriving DecidableEq, Repr

namespace Event

def level : Event → String
  | evicted _ => "TRACE"
  | _ => "DEBUG"

def message : Event → String
  | constructed .. => "cache constructed"
  | destroyed .. => "cache destroyed"
  | rejected .. => "item rejected as too big"
  | emptied .. => "cache emptied"
  | evicted _ => "evicted entry"

def fields : Event → List (String × FieldValue)
  | constructed totalLength entryCount binCount storeOffset storeLength owned => [
      ("total_length", .number totalLength),
      ("nentries", .number entryCount),
      ("nbins", .number binCount),
      ("store_offset", .number storeOffset),
      ("store_length", .number storeLength),
      ("self_allocated", .flag owned)]
  | destroyed owned len => [("self_allocated", .flag owned), ("entries", .number len)]
  | rejected key length maxLength => [
      ("key", .number key.toNat),
      ("length", .number length),
      ("max_length", .number maxLength)]
  | emptied storeLength => [("store_length", .number storeLength)]
  | evicted e => [
      ("key", .number e.key.toNat),
      ("bin", .number e.bin),
      ("offset", .number e.offset),
      ("length", .number e.length),
      ("time", .number e.time)]

end Event
end BlockCache
