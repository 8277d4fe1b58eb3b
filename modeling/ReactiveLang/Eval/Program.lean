import ReactiveLang.Analysis.Dependencies
import ReactiveLang.Analysis.Rules
import ReactiveLang.Eval.Config
import ReactiveLang.Eval.Step

/-!
# Programs

A program is an analysed tree with its code and its settings: all that stays the same while it
runs.
-/

namespace ReactiveLang

structure Program where
  analysis : Analysis
  code : Code
  config : Config
  /-- What is wrong with the program. -/
  conflicts : List Conflict

namespace Program

def ofTree (t : Tree) (config : Config) : Program :=
  let analysis := Analysis.ofTree t
  ⟨analysis, Code.ofTree t, config, analysis.conflicts⟩

def tree (p : Program) : Tree := p.analysis.tree

end Program
end ReactiveLang
