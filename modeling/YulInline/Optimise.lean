import YulInline.Inliner.Run
import YulInline.Settings

/-!
# Optimising a module

The steps that the settings list are run in order over one module. The names in use are those of the
module at the start and the reserved ones, and each step hands on to the next one what it has added
to them.
-/

namespace YulInline

/-- A module between two steps, with the names in use. -/
structure Stage where
  /-- The module. -/
  module : Block
  /-- The names in use. -/
  names : NameSupply

/-- The stage in front of the first step. -/
def Stage.first (settings : Settings) (module : Block) : Stage :=
  ⟨module, settings.reservedNames.foldl NameSupply.reserve (NameSupply.ofBlock module)⟩

/-- The stage behind a step. -/
def Stage.advance (stage : Stage) : Step → Except InlineError Stage
  | .fullInliner => (inline stage.module stage.names).map fun (module, names) => ⟨module, names⟩

/-- Runs all steps of the settings over a module. -/
def optimise (settings : Settings) (module : Block) : Except InlineError Block :=
  (settings.steps.foldlM Stage.advance (Stage.first settings module)).map Stage.module

end YulInline
