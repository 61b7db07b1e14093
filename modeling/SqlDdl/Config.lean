import SqlDdl.Dialect
/-!
# Parser configuration

The dialect in which statements are read and how many parsed statements a cache keeps. A
capacity of zero stands for the fallback capacity of a hundred.
-/

namespace SqlDdl

/-- How statements are parsed and cached. -/
structure ParserConfig where
  dialect : Dialect := .mysql
  cacheCapacity : Nat := 1000
  deriving DecidableEq, Repr

namespace ParserConfig

/-- A configuration with a small cache, so that eviction shows early. -/
def testing : ParserConfig := { cacheCapacity := 8 }

/-- The capacity a cache gets: the configured one, or a hundred in place of zero. -/
def effectiveCapacity (c : ParserConfig) : Nat :=
  if c.cacheCapacity = 0 then 100 else c.cacheCapacity

end ParserConfig

end SqlDdl
