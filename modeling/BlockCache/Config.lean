import BlockCache.Error

/-!
# Config — how a budget is split

A configuration says how many entries a byte budget gets and how many of them share a bin. It can
be adjusted setting by setting before a cache is built from it.
-/

namespace BlockCache

structure Config where
  /-- Entries per bin to aim for. -/
  chainLength : Nat := 8
  /-- Share of the budget, counted in entry records, that becomes entries. -/
  entryPercentage : Nat := 20
  /-- Whether a statistics report includes the occupancy. -/
  detailedStats : Bool := false
  deriving DecidableEq, Repr

namespace Config

def validate (c : Config) : Except CacheError Unit :=
  if c.chainLength < 1 then
    .error (.badArgument .chainLength)
  else if c.entryPercentage < entryPercentageRange.1 ∨ entryPercentageRange.2 < c.entryPercentage then
    .error (.badArgument (.entryPercentage c.entryPercentage))
  else
    .ok ()

def text (c : Config) : String :=
  Text.record "CacheConfig" [
    ("hash_chain_length", toString c.chainLength),
    ("nentries_percentage", toString c.entryPercentage),
    ("detailed_stats", Text.bool c.detailedStats)]

/-! ## Settings -/

inductive Setting
  | chainLength (n : Nat)
  | entryPercentage (n : Nat)
  | detailedStats (b : Bool)
  /-- Every parameter at once. -/
  | all (config : Config)
  deriving DecidableEq, Repr

def adjust (c : Config) : Setting → Config
  | .chainLength n => { c with chainLength := n }
  | .entryPercentage n => { c with entryPercentage := n }
  | .detailedStats b => { c with detailedStats := b }
  | .all config => config

/-- The configuration that a list of settings, applied in order, leaves. -/
def ofSettings (settings : List Setting) : Config :=
  settings.foldl adjust {}

end Config
end BlockCache
