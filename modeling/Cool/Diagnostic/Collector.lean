import Cool.Diagnostic.Basic

/-!
# Collecting diagnostics up to a limit

A collector keeps diagnostics in the order in which they come. With a limit it is halted as soon as
it holds more diagnostics than the limit says, and drops all that come later; so it never holds more
than one beyond the limit.

* `Collector`, `Collector.halted` : diagnostics and the limit on them;
* `Collector.push`, `Collector.extend` : one more, or several.
-/

namespace Cool

structure Collector where
  limit : Option Nat
  entries : List Diagnostic

namespace Collector

/-- The limit used unless another one is asked for. -/
def defaultLimit : Nat := 50

def empty (limit : Option Nat) : Collector :=
  ⟨limit, []⟩

/-- Whether the limit is exceeded. -/
def halted (c : Collector) : Bool :=
  c.limit.any fun limit => c.entries.length > limit

def push (c : Collector) (d : Diagnostic) : Collector :=
  if c.halted then c else { c with entries := c.entries ++ [d] }

def extend (c : Collector) (ds : List Diagnostic) : Collector :=
  ds.foldl push c

end Collector

end Cool
