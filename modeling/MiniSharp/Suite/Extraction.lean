import MiniSharp.Markdown.Document
import MiniSharp.Suite.Cases

namespace MiniSharp.Suite

def extract (document : Text) : Except Failure (List Case) := extractWith Markdown.nodes document

end MiniSharp.Suite
