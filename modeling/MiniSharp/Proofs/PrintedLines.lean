import MiniSharp.Target.Printer

namespace MiniSharp.Target

structure Line where
  depth : Nat
  text : Text

namespace Line

def blank : Line := ⟨0, []⟩

def render (l : Line) : Text :=
  if l.text = [] then [Text.newline] else Text.blanks (4 * l.depth) ++ l.text ++ [Text.newline]

def indent (l : Line) : Line := { l with depth := l.depth + 1 }

def braced (inside : List Line) : List Line :=
  ⟨0, "\x7b"⟩ :: inside.map indent ++ [⟨0, "\x7d"⟩]

end Line

mutual

def Stmt.lines : Stmt → List Line
  | .simple stmt => [⟨0, stmt.render ++ ";"⟩]
  | .print value => [⟨0, "Console.WriteLine(" ++ value.render ++ ");"⟩]
  | .read name type =>
    [⟨0, "Console.Out.Flush();"⟩, ⟨0, name ++ " = " ++ readValue type ++ ";"⟩]
  | .ret value => [⟨0, "return " ++ value.render ++ ";"⟩]
  | .ifThen cond body => ⟨0, "if (" ++ cond.render ++ ")"⟩ :: Line.braced (Stmt.linesAll body)
  | .ifElse cond body elseBody =>
    ⟨0, "if (" ++ cond.render ++ ")"⟩ :: Line.braced (Stmt.linesAll body) ++
      ⟨0, "else"⟩ :: Line.braced (Stmt.linesAll elseBody)
  | .whileDo cond body =>
    ⟨0, "while (" ++ cond.render ++ ")"⟩ :: Line.braced (Stmt.linesAll body)
  | .forDo init cond step body =>
    ⟨0, "for (" ++ forHeader init cond step ++ ")"⟩ :: Line.braced (Stmt.linesAll body)
  | .block body => Line.braced (Stmt.linesAll body)

def Stmt.linesAll : List Stmt → List Line
  | [] => []
  | s :: rest => s.lines ++ Stmt.linesAll rest

end

def Method.lines (m : Method) : List Line :=
  ⟨0, m.head⟩ ::
    Line.braced ((if m.entry then [⟨0, autoFlush⟩] else []) ++ Stmt.linesAll m.body)

def runtime : List Line :=
  ⟨0, "internal static class Runtime"⟩ :: Line.braced (showMethods.map fun t => ⟨0, t⟩)

def methodLines (methods : List Method) : List Line :=
  [Line.blank].intercalate (methods.map Method.lines)

def fileLines (methods : List Method) : List Line :=
  [⟨0, "using System;"⟩, ⟨0, "using System.Globalization;"⟩, ⟨0, "using System.IO;"⟩, Line.blank,
    ⟨0, "namespace MACSLangRuntime"⟩] ++
    Line.braced
      (⟨0, "public static class Program"⟩ :: Line.braced (methodLines methods) ++
        Line.blank :: runtime)

namespace Writer

def put (w : Writer) (ls : List Line) : Writer :=
  { w with text := w.text ++ ls.flatMap fun l => Line.render ⟨l.depth + w.indent, l.text⟩ }

theorem put_nil (w : Writer) : w.put [] = w := by
  rw [put, List.flatMap_nil, List.append_nil]

theorem put_put (w : Writer) (ls ms : List Line) : (w.put ls).put ms = w.put (ls ++ ms) := by
  rw [put, put, put, List.flatMap_append, List.append_assoc]

theorem line_eq_put (w : Writer) (t : Text) : w.line t = w.put [⟨0, t⟩] := by
  rw [line, put, List.flatMap_singleton, Line.render, Nat.zero_add]
  split
  · rfl
  · simp only [List.append_assoc]

theorem closeBrace_put (w : Writer) (ls : List Line) :
    (w.openBrace.put ls).closeBrace = w.put (Line.braced ls) := by
  have hinside : (w.openBrace.put ls) = { w.put (⟨0, "\x7b"⟩ :: ls.map Line.indent) with
      indent := w.indent + 1 } := by
    rw [openBrace, line_eq_put]
    simp only [put, List.flatMap_cons, List.flatMap_nil, List.nil_append, List.flatMap_map,
      List.append_assoc, Line.indent, Nat.add_right_comm, Nat.add_assoc]
  rw [closeBrace, hinside, line_eq_put]
  exact put_put w (⟨0, "\x7b"⟩ :: ls.map Line.indent) [⟨0, "\x7d"⟩]

end Writer

mutual

theorem Stmt.write_eq (w : Writer) : (s : Stmt) → s.write w = w.put s.lines
  | .simple _ => by rw [write, lines, Writer.line_eq_put]
  | .print _ => by rw [write, lines, Writer.line_eq_put]
  | .read _ _ => by
    rw [write, lines, Writer.line_eq_put, Writer.line_eq_put, Writer.put_put]
    rfl
  | .ret _ => by rw [write, lines, Writer.line_eq_put]
  | .ifThen _ body => by
    rw [write, lines, writeAll_eq _ body, Writer.closeBrace_put, Writer.line_eq_put, Writer.put_put]
    rfl
  | .ifElse _ body elseBody => by
    rw [write, lines, writeAll_eq _ body, writeAll_eq _ elseBody, Writer.closeBrace_put,
      Writer.closeBrace_put, Writer.line_eq_put, Writer.line_eq_put, Writer.put_put, Writer.put_put,
      Writer.put_put, List.append_assoc]
    rfl
  | .whileDo _ body => by
    rw [write, lines, writeAll_eq _ body, Writer.closeBrace_put, Writer.line_eq_put, Writer.put_put]
    rfl
  | .forDo _ _ _ body => by
    rw [write, lines, writeAll_eq _ body, Writer.closeBrace_put, Writer.line_eq_put, Writer.put_put]
    rfl
  | .block body => by rw [write, lines, writeAll_eq _ body, Writer.closeBrace_put]

theorem Stmt.writeAll_eq (w : Writer) : (ss : List Stmt) → Stmt.writeAll w ss = w.put (linesAll ss)
  | [] => by rw [writeAll, linesAll, Writer.put_nil]
  | s :: rest => by rw [writeAll, linesAll, s.write_eq, writeAll_eq _ rest, Writer.put_put]

end

theorem Method.write_eq (w : Writer) (m : Method) : m.write w = w.put m.lines := by
  have hstart (w : Writer) : (if m.entry then w.line autoFlush else w) =
      w.put (if m.entry then [⟨0, autoFlush⟩] else []) := by
    split
    · exact w.line_eq_put autoFlush
    · exact w.put_nil.symm
  rw [write, lines, hstart, Stmt.writeAll_eq, Writer.put_put, Writer.closeBrace_put,
    Writer.line_eq_put, Writer.put_put]
  rfl

namespace Writer

theorem foldl_line (w : Writer) (ts : List Text) :
    ts.foldl line w = w.put (ts.map fun t => ⟨0, t⟩) := by
  induction ts generalizing w with
  | nil => exact w.put_nil.symm
  | cons t ts ih =>
    rw [List.foldl_cons, ih, line_eq_put, put_put]
    rfl

theorem runtime_eq (w : Writer) : w.runtime = w.put Target.runtime := by
  rw [runtime, foldl_line, closeBrace_put, line_eq_put, put_put]
  rfl

theorem methods_eq (w : Writer) (ms : List Method) : w.methods ms = w.put (methodLines ms) := by
  induction ms generalizing w with
  | nil => exact w.put_nil.symm
  | cons m ms ih =>
    cases ms with
    | nil => rw [methods, m.write_eq, methodLines, List.map_singleton, List.intercalate_singleton]
    | cons n ns =>
      have hlines : methodLines (m :: n :: ns) = m.lines ++ [Line.blank] ++ methodLines (n :: ns) := by
        simp only [methodLines, List.map_cons, List.intercalate_cons_cons]
      rw [methods, ih, m.write_eq, line_eq_put, put_put, put_put, hlines, List.append_assoc]
      rfl

theorem file_eq (w : Writer) (ms : List Method) : w.file ms = w.put (fileLines ms) := by
  rw [file, runtime_eq, methods_eq]
  simp only [line_eq_put, closeBrace_put, put_put, fileLines, List.append_assoc]
  rfl

end Writer

theorem renderFile_eq_lines (ms : List Method) : renderFile ms = (fileLines ms).flatMap Line.render := by
  rw [renderFile, Writer.file_eq]
  rfl

end MiniSharp.Target
