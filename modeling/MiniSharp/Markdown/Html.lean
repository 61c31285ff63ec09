import MiniSharp.Markdown.Line
import MiniSharp.Text.Lowercase

namespace MiniSharp.Markdown.Html

def isAlpha (b : UInt8) : Bool :=
  (Text.byte 'a' ≤ b && b ≤ Text.byte 'z') || (Text.byte 'A' ≤ b && b ≤ Text.byte 'Z')

def isAlphanumeric (b : UInt8) : Bool := isAlpha b || Text.isDigit b

def oneOf (bytes : String) (b : UInt8) : Bool := (Text.ofString bytes).contains b

def strip? (start : Text) (t : Text) : Option Text := start.isPrefixOf? t

def after? (mark : Text) : Text → Option Text
  | [] => strip? mark []
  | b :: rest =>
    match strip? mark (b :: rest) with
    | some rest => some rest
    | none => after? mark rest

def contains (mark t : Text) : Bool := (after? mark t).isSome

def name? (t : Text) : Option (Text × Text) :=
  match t with
  | [] => none
  | b :: _ =>
    if isAlpha b then
      let inName := fun b => isAlphanumeric b || b == Text.byte '-'
      some (t.takeWhile inName, t.dropWhile inName)
    else none

def isUnquoted (b : UInt8) : Bool := 0x20 < b && !oneOf "\x22'=<>\x60" b

def value? (t : Text) : Option Text :=
  match t with
  | [] => none
  | b :: rest =>
    if b = Text.doubleQuote ∨ b = Text.singleQuote then after? [b] rest
    else if isUnquoted b then some (rest.dropWhile isUnquoted)
    else none

def attributeValue? (t : Text) : Option Text :=
  (strip? [Text.byte '='] (trimLeft t)).bind fun rest => value? (trimLeft rest)

def attribute? (t : Text) : Option Text :=
  match t with
  | [] => none
  | b :: _ =>
    if isSpace b then
      match trimLeft t with
      | [] => none
      | c :: rest =>
        if isAlpha c || oneOf "_:" c then
          let rest := rest.dropWhile fun b => isAlphanumeric b || oneOf ":._-" b
          some ((attributeValue? rest).getD rest)
        else none
    else none

def attributes (t : Text) : Text :=
  match attribute? t with
  | none => t
  | some rest => if rest.length < t.length then attributes rest else t
termination_by t.length

def tagEnd? (t : Text) : Option Text :=
  (strip? (Text.ofString "/>") t).or (strip? [Text.byte '>'] t)

def tagSpace : Text → Text
  | [] => []
  | b :: rest =>
    if b = Text.blank ∨ b = Text.tab ∨ b = Text.newline then tagSpace rest
    else if b = Text.carriageReturn ∧ rest.head? = some Text.newline then tagSpace rest
    else b :: rest

def openTag? (t : Text) : Option Text :=
  (name? t).bind fun (_, rest) => tagEnd? (tagSpace (attributes rest))

def closeTag? (t : Text) : Option Text :=
  (name? t).bind fun (_, rest) => strip? [Text.byte '>'] (tagSpace rest)

def comment? (t : Text) : Option Text :=
  ((strip? (Text.ofString ">") t).or (strip? (Text.ofString "->") t)).or
    (after? (Text.ofString "-->") t)

def element? (t : Text) : Option Text :=
  match t with
  | [] => none
  | b :: rest =>
    if isAlphanumeric b then openTag? t
    else if b = Text.byte '/' && rest.head?.any isAlphanumeric then closeTag? rest
    else match strip? (Text.ofString "!--") t with
      | some rest => comment? rest
      | none =>
        if b = Text.byte '?' then after? (Text.ofString "?>") t
        else if b = Text.byte '!' && rest.head?.any fun c => isAlpha c && Text.lowerByte c != c then
          after? [Text.byte '>'] rest
        else (strip? (Text.ofString "![CDATA[") t).bind (after? (Text.ofString "]]>"))

def isScheme (b : UInt8) : Bool := isAlphanumeric b || oneOf "+.-" b

def isAddress (b : UInt8) : Bool := 0x20 < b && !oneOf "<>" b

def url? (t : Text) : Option Text :=
  let scheme := t.takeWhile isScheme
  if t.head?.any isAlpha && 2 ≤ scheme.length && scheme.length ≤ 33 then
    (strip? [Text.byte ':'] (t.dropWhile isScheme)).map (List.dropWhile isAddress)
  else none

def isMailbox (b : UInt8) : Bool := isAlphanumeric b || oneOf ".!#$%&'*+/=?^_\x60\x7b|\x7d~-" b

def label? (t : Text) : Option Text :=
  let run := (t.takeWhile fun b => isAlphanumeric b || b == Text.byte '-').take 63
  let label := Text.dropTrailing (· == Text.byte '-') run
  if label.head?.any isAlphanumeric then some (t.drop label.length) else none

def labels (t : Text) : Text :=
  match (strip? [Text.byte '.'] t).bind label? with
  | none => t
  | some rest => if rest.length < t.length then labels rest else t
termination_by t.length

def email? (t : Text) : Option Text :=
  if t.head?.any isMailbox then
    ((strip? [Text.byte '@'] (t.dropWhile isMailbox)).bind label?).map labels
  else none

def address? (t : Text) : Option Text := ((email? t).or (url? t)).bind (strip? [Text.byte '>'])

def bracketed? (t : Text) : Option Text := (address? t).or (element? t)

inductive Ending
  | marks (marks : List Text)
  | blank

def Ending.reached (line : Text) : Ending → Bool
  | .marks all => all.any fun m => contains m (line.map Text.lowerByte)
  | .blank => line.all isSpace

def verbatimTags : List Text := ["script", "pre", "style", "textarea"]

def unmarkedTags : List Text := ["script", "style", "pre"]

def blockTags : List Text := List.map Text.ofString
  [ "address", "article", "aside", "base", "basefont", "blockquote", "body", "caption", "center",
    "col", "colgroup", "dd", "details", "dialog", "dir", "div", "dl", "dt", "fieldset", "figcaption",
    "figure", "footer", "form", "frame", "frameset", "h1", "h2", "h3", "h4", "h5", "h6", "head",
    "header", "hr", "html", "iframe", "legend", "li", "link", "main", "menu", "menuitem", "meta",
    "nav", "noframes", "ol", "optgroup", "option", "p", "param", "search", "section", "summary",
    "table", "tbody", "td", "tfoot", "th", "thead", "title", "tr", "track", "ul" ]

def verbatimEnding : Ending :=
  .marks (verbatimTags.map fun tag => "</" ++ tag ++ ">")

def goesOn (isGap : UInt8 → Bool) (t : Text) : Bool :=
  t.all isSpace || t.head?.any isGap || (tagEnd? t).isSome

def fillsLine (rest : Text) : Bool :=
  let isBlank := (· == Text.blank)
  ((tagEnd? ((attributes rest).dropWhile isBlank)).map fun t => (t.dropWhile isBlank).all isSpace)
    == some true

/-- The block of markup that a line starts, after its opening bracket. Where it would break a
paragraph, a tag of no special meaning starts none. -/
def block? (inParagraph : Bool) (t : Text) : Option Ending :=
  let marks := fun m : String => some (.marks [Text.ofString m])
  let closing := (strip? [Text.byte '/'] t).map (List.dropWhile (· == Text.blank))
  let verbatim := (name? t).any fun (name, rest) =>
    verbatimTags.contains (Text.lower name) && goesOn (fun b => isSpace b || b == 0x0C) rest
  if verbatim then some verbatimEnding
  else if (strip? (Text.ofString "!--") t).isSome then marks "-->"
  else if (strip? (Text.ofString "?") t).isSome then marks "?>"
  else if ((strip? (Text.ofString "!") t).bind List.head?).any
      (fun c => isAlpha c && Text.lowerByte c != c) then marks ">"
  else if (strip? (Text.ofString "![CDATA[") t).isSome then marks "]]>"
  else match name? (closing.getD t) with
    | none => none
    | some (name, rest) =>
      let name := Text.lower name
      if blockTags.contains name && (goesOn (· == Text.blank) rest || fillsLine rest) then some .blank
      else if fillsLine rest && !inParagraph && !unmarkedTags.contains name &&
          !(closing.isSome && (attributes rest).length < rest.length) then some .blank
      else none

end MiniSharp.Markdown.Html
