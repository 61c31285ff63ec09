import MiniSharp.Analysis.Lowering
import MiniSharp.Program.Parser

namespace MiniSharp

def check (source : Text) : Except Stop Analysis := do
  let program ← (parse source).mapError .parse
  program.analyze

def compile (source : Text) : Except Stop Text := do
  let analysis ← check source
  analysis.program.toCSharp.mapError .fault

end MiniSharp
