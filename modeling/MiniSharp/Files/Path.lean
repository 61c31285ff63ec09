import MiniSharp.Text.Basic

namespace MiniSharp.Path

def slash : UInt8 := Text.byte '/'

def isRooted (p : Text) : Bool := p.head? == some slash

def split : Text → List Text
  | [] => [[]]
  | b :: rest =>
    if b = slash then [] :: split rest
    else
      match split rest with
      | [] => [[b]]
      | part :: more => (b :: part) :: more

def here : Text := "."
def parent : Text := ".."

def push (rooted : Bool) (before : List Text) (part : Text) : List Text :=
  if part = [] ∨ part = here then before
  else if part = parent then
    match before with
    | [] => if rooted then [] else [part]
    | last :: rest => if last = parent then part :: before else rest
  else part :: before

def clean (p : Text) : Text :=
  let rooted := isRooted p
  let parts := ((split p).foldl (push rooted) []).reverse
  let body := Text.join [slash] parts
  if rooted then slash :: body else if body = [] then here else body

def join (parts : List Text) : Text :=
  match parts.filter (· ≠ []) with
  | [] => []
  | parts => clean (Text.join [slash] parts)

def absolute (directory p : Text) : Text := if isRooted p then clean p else join [directory, p]

def base (p : Text) : Text :=
  if p = [] then here
  else ((split (Text.dropTrailing (· == slash) p)).getLast?.filter (· ≠ [])).getD [slash]

end MiniSharp.Path
